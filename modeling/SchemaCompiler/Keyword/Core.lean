import SchemaCompiler.Keyword.Reference

/-!
# Core keywords

References, definitions, `type`, and the keywords that only describe.
-/
namespace SchemaCompiler.Core

def describing (keyword : String) (valueTypes : List JsonType) : KeywordDefinition :=
  { KeywordDefinition.plain keyword .remark with valueTypes := valueTypes }

def holding (keyword : String) : KeywordDefinition :=
  { describing keyword [.object] with layout := .map }

def typeNames : Json → List String
  | .string t => [t]
  | .array ts => ts.filterMap Json.string?
  | _ => []

def typesOf (members : List (String × Json)) : List JsonType :=
  match Assoc.get? "type" members with
  | some v => (typeNames v).filterMap JsonType.ofName?
  | none => []

def planType (o : Occurrence) : Planner Plan :=
  let names := typeNames o.value
  let tests := (names.filterMap JsonType.ofName?).map fun t => Expr.typeIs o.data t
  return o.failUnless (.any tests) [("type", .str (",".intercalate names))]

def checkTypeNames (seen : List String) : List Json → Except SchemaFault Unit
  | [] => .ok ()
  | .string t :: rest =>
    if (JsonType.ofName? t).isNone then .error (.unknownType t)
    else if seen.contains t then .error (.repeatedType t)
    else checkTypeNames (t :: seen) rest
  | other :: _ => .error (.typeNotString other)

def checkType (v : Json) (_ : Json) : Except SchemaFault Unit :=
  match v with
  | .array items => checkTypeNames [] items
  | other => checkTypeNames [] [other]

def typeDefinition : KeywordDefinition :=
  { KeywordDefinition.plain "type" (.code planType) with
    valueTypes := [.string, .array]
    message := some "must be \x7btype\x7d"
    check := some checkType }

def definitions : List KeywordDefinition :=
  [Reference.definition "$ref" false, Reference.definition "$dynamicRef" true,
    holding "$defs", holding "definitions", typeDefinition,
    describing "$id" [.string], describing "$schema" [.string], describing "$anchor" [.string],
    describing "$dynamicAnchor" [.string], describing "$comment" [.string],
    describing "$async" [.boolean], describing "title" [.string],
    describing "description" [.string], describing "default" [],
    describing "examples" [.array], describing "deprecated" [.boolean],
    describing "readOnly" [.boolean], describing "writeOnly" [.boolean]]

end SchemaCompiler.Core
