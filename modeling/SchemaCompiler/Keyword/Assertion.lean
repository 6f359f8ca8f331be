import SchemaCompiler.Keyword.Vocabulary

/-!
# Assertions

Keywords that say something of one value, without other schemas.
-/
namespace SchemaCompiler.Assertion

def unrollLimit : Nat := 8

def textItems (v : Json) : List String := ((v.array?).getD []).filterMap Json.string?

/-! ## Equality -/

def alternative (o : Occurrence) (equal : Name) (item : Json) : Planner Expr :=
  if item.isContainer then do
    let item ← Occurrence.inject item
    return .callName equal [o.data, item]
  else return .equals o.data (.lit item)

def itemStem : LocalStem := .of "item"

def search (o : Occurrence) (equal found item : Name) (values : Expr) : List Stmt :=
  [.declare found (some (.bool false)) false,
    .forEach item values
      [.branch (.callName equal [o.data, .var item])
        [.assign found (.bool true), .leave] []]]

def unrolled? (o : Occurrence) : Option (List Json) :=
  match o.value with
  | .array items => if !o.isData && items.length ≤ unrollLimit then some items else none
  | _ => none

def planEnum (o : Occurrence) : Planner Plan := do
  let equal ← Gen.primitive .equal
  let values ← o.valueCode
  let params := [("allowedValues", values)]
  match unrolled? o with
  | some items => do
    let tests ← items.mapM (alternative o equal)
    return o.failUnless (.any tests) params
  | none => do
    let found ← Gen.fresh Occurrence.validStem
    let item ← Gen.fresh itemStem
    return .seq (.quiet (search o equal found item values)) (o.failUnless (.var found) params)

def planConst (o : Occurrence) : Planner Plan := do
  let value ← o.valueCode
  let params := [("allowedValue", value)]
  if !o.isData && !o.value.isContainer then return o.failIf (.differs o.data value) params
  else
    let equal ← Gen.primitive .equal
    return o.failUnless (.callName equal [o.data, value]) params

/-! ## Numbers and sizes -/

/-- The data compares to the value; `fails` is the comparison that is an error. -/
def planLimit (fails : BinaryOp) (comparison : String) (o : Occurrence) : Planner Plan := do
  let limit ← o.valueCode
  return o.failIf (.binary fails o.data limit) [("comparison", .str comparison), ("limit", limit)]

def limit (keyword : String) (fails : BinaryOp) (comparison : String) : KeywordDefinition :=
  { KeywordDefinition.plain keyword (.code (planLimit fails comparison)) with
    types := [.number]
    valueTypes := [.number]
    takesData := true
    message := some "must be \x7bcomparison\x7d \x7blimit\x7d" }

def planMultiple (o : Occurrence) : Planner Plan := do
  let divisor ← o.valueCode
  return o.failIf (Expr.typeIs (.binary .div o.data divisor) .integer).negate
    [("multipleOf", divisor)]

def checkPositive (v : Json) (_ : Json) : Except SchemaFault Unit :=
  match v with
  | .number n => if n.toBinary64.isPositive then .ok () else .error .notPositive
  | _ => .error .notPositive

def multipleOf : KeywordDefinition :=
  { KeywordDefinition.plain "multipleOf" (.code planMultiple) with
    types := [.number]
    valueTypes := [.number]
    takesData := true
    message := some "must be multiple of \x7bmultipleOf\x7d"
    check := some checkPositive }

def sizeCode (type : JsonType) (o : Occurrence) : Planner Expr :=
  match type with
  | .string => do
    let codePoints ← Gen.primitive .codePoints
    return .callName codePoints [o.data]
  | _ => return .len o.data

/-- The size of the data compares to the value; `fails` is the comparison that is an error. -/
def planSize (type : JsonType) (fails : BinaryOp) (o : Occurrence) : Planner Plan := do
  let limit ← o.valueCode
  let size ← sizeCode type o
  return o.failIf (.binary fails size limit) [("limit", limit)]

def checkNatural (v : Json) (_ : Json) : Except SchemaFault Unit :=
  match v with
  | .number n => if n.toBinary64.isNegative then .error .notNatural else .ok ()
  | _ => .error .notNatural

def size (keyword : String) (type : JsonType) (fails : BinaryOp) (side unit : String) :
    KeywordDefinition :=
  { KeywordDefinition.plain keyword (.code (planSize type fails)) with
    types := [type]
    valueTypes := [.integer]
    takesData := true
    message := some ("must NOT have " ++ side ++ " than \x7blimit\x7d " ++ unit)
    check := some checkNatural }

/-! ## Texts -/

def planPattern (o : Occurrence) : Planner Plan := do
  let source := (o.value.string?).getD ""
  let pattern ← Occurrence.pattern source
  return o.failUnless (.callName pattern [o.data]) [("pattern", .str source)]

def checkSource (source : String) : Except SchemaFault Unit :=
  match Pattern.read source with
  | .ok _ => .ok ()
  | .error fault => .error (.badPattern source fault)

def pattern : KeywordDefinition :=
  { KeywordDefinition.plain "pattern" (.code planPattern) with
    types := [.string]
    valueTypes := [.string]
    message := some "must match pattern \"\x7bpattern\x7d\""
    check := some fun v _ => checkSource ((v.string?).getD "") }

def formatStem : Stem := .of "format"

def planKnownFormat (o : Occurrence) (name : String) (f : Format) : Planner Plan := do
  let test ← Gen.value formatStem (f.descriptor name)
  let call := Expr.callName test [o.data]
  let call := if f.isAsync then Expr.await call else call
  let applies := Expr.any (f.types.map fun t => .typeIs o.data t)
  return o.failIf (.all [applies, call.negate]) [("format", .str name)]

def planFormat (o : Occurrence) : Planner Plan :=
  if !o.policy.validateFormats then return .nothing
  else
    let name := (o.value.string?).getD ""
    match o.formats.get? name with
    | none =>
      match o.policy.strictness with
      | .error => throw (.unknownFormat name o.site.schemaPath)
      | _ => return .nothing
    | some f =>
      if f.isAsync && !o.site.isAsync then
        throw (.invalidSchema o.site.schemaPath (.asyncFormat name))
      else planKnownFormat o name f

def format : KeywordDefinition :=
  { KeywordDefinition.plain "format" (.code planFormat) with
    valueTypes := [.string]
    message := some "must match format \"\x7bformat\x7d\"" }

/-! ## Arrays -/

def earlierStem : LocalStem := .of "dupJ"

def laterStem : LocalStem := .of "dupI"

def indexStem : LocalStem := .of "i"

def innerIndexStem : LocalStem := .of "j"

def searchPair (o : Occurrence) (equal earlier later i j : Name) : List Stmt :=
  [.declare earlier (some .null) false,
    .declare later (some .null) false,
    .forRange i (.nat 0) (.len o.data)
      [.forRange j (.plus (.var i) (.nat 1)) (.len o.data)
        [.branch (.callName equal [.index o.data (.var i), .index o.data (.var j)])
          [.assign earlier (.var i), .assign later (.var j), .leave] []],
      .branch (.differs (.var earlier) .null) [.leave] []]]

def planUnique (o : Occurrence) : Planner Plan := do
  if o.isData || !o.value.isBool true then return .nothing
  let equal ← Gen.primitive .equal
  let earlier ← Gen.fresh earlierStem
  let later ← Gen.fresh laterStem
  let i ← Gen.fresh indexStem
  let j ← Gen.fresh innerIndexStem
  return .seq (.quiet (searchPair o equal earlier later i j))
    (o.failIf (.differs (.var earlier) .null) [("i", .var earlier), ("j", .var later)])

def uniqueItems : KeywordDefinition :=
  { KeywordDefinition.plain "uniqueItems" (.code planUnique) with
    types := [.array]
    valueTypes := [.boolean]
    message := some
      "must NOT have duplicate items (items ## \x7bj\x7d and \x7bi\x7d are identical)" }

/-! ## Objects -/

def propertyStem : LocalStem := .of "prop"

def lacks (o : Occurrence) (property : Expr) : Expr := (Expr.has o.data property).negate

def missing (property : Expr) : List (String × Expr) := [("missingProperty", property)]

/-- The data has all of some properties. Unless all errors are collected, the first that is missing
is reported. -/
def demandAll (o : Occurrence) : List Expr → Plan
  | [] => .nothing
  | p :: ps => .demand (lacks o p) (o.ownRecord (missing p)) (demandAll o ps)

def planRequired (o : Occurrence) : Planner Plan := do
  if o.isData then
    let names ← o.valueCode
    let p ← Gen.fresh propertyStem
    return .loop p (.items names) (o.failIf (lacks o (.var p)) (missing (.var p)))
  else return demandAll o ((textItems o.value).map Expr.str)

def checkTexts (keyword : String) (seen : List String) : List Json → Except SchemaFault Unit
  | [] => .ok ()
  | .string s :: rest =>
    if seen.contains s then .error (.repeatedItem keyword s)
    else checkTexts keyword (s :: seen) rest
  | _ :: _ => .error (.itemNotString keyword)

def checkTextSet (keyword : String) (v : Json) : Except SchemaFault Unit :=
  checkTexts keyword [] ((v.array?).getD [])

def required : KeywordDefinition :=
  { KeywordDefinition.plain "required" (.code planRequired) with
    types := [.object]
    valueTypes := [.array]
    takesData := true
    message := some "must have required property '\x7bmissingProperty\x7d'"
    check := some fun v _ => checkTextSet "required" v }

def dependents (o : Occurrence) (property : String) (names : List Expr) : Plan :=
  if names.isEmpty then .nothing
  else
    .when (.has o.data (.str property)) <|
      .all (names.map fun p => o.failIf (lacks o p) (("property", .str property) :: missing p))

def planDependent (o : Occurrence) : Planner Plan :=
  return .all (((o.value.object?).getD []).map fun (property, names) =>
    dependents o property ((textItems names).map Expr.str))

def dependentRequired : KeywordDefinition :=
  { KeywordDefinition.plain "dependentRequired" (.code planDependent) with
    types := [.object]
    valueTypes := [.object]
    message := some
      "must have property \x7bmissingProperty\x7d when property \x7bproperty\x7d is present"
    check := some fun v _ =>
      ((v.object?).getD []).forM fun (_, names) => checkTextSet "dependentRequired" names }

def definitions : List KeywordDefinition :=
  [{ KeywordDefinition.plain "enum" (.code planEnum) with
      valueTypes := [.array]
      takesData := true
      message := some "must be equal to one of the allowed values" },
    { KeywordDefinition.plain "const" (.code planConst) with
      takesData := true
      message := some "must be equal to constant" },
    limit "maximum" .gt "<=", limit "minimum" .lt ">=",
    limit "exclusiveMaximum" .ge "<", limit "exclusiveMinimum" .le ">",
    multipleOf,
    size "maxLength" .string .gt "more" "characters",
    size "minLength" .string .lt "fewer" "characters",
    pattern, format,
    size "maxItems" .array .gt "more" "items",
    size "minItems" .array .lt "fewer" "items",
    uniqueItems,
    size "maxProperties" .object .gt "more" "properties",
    size "minProperties" .object .lt "fewer" "properties",
    required, dependentRequired]

end SchemaCompiler.Assertion
