import SchemaCompiler.Keyword.Script

/-!
# Vocabularies

A keyword is defined once, and its definition is checked then. A vocabulary holds the keywords in
the order of their definition, which is also the order in which those of a group are compiled.
-/
namespace SchemaCompiler

/-- What a keyword does. -/
inductive KeywordKind where
  /-- Makes a plan. -/
  | code (plan : Occurrence → Planner Plan)
  /-- Emits code, operation by operation. -/
  | script (script : Script Unit)
  /-- Tests the data against its value when the program runs. The test can be stored in a module
  only by its path. -/
  | test (test : Json → Json → Bool) (path : Option String)
  /-- Stands for the schema that its value and the schema around it expand to. -/
  | expansion (expand : Json → Json → Json)
  /-- Does nothing. -/
  | remark

/-- Where the value of a keyword holds schemas. -/
inductive Layout where
  | none
  | single
  | list
  | map
  | singleOrList
deriving DecidableEq, Repr, Inhabited

/-- The definition of a keyword. -/
structure KeywordDefinition where
  keyword : String
  kind : KeywordKind
  /-- The types of data that the keyword applies to; empty for all. -/
  types : List JsonType
  /-- The types that its value may have; empty for all. -/
  valueTypes : List JsonType
  /-- Whether a pointer into the data may stand for its value. -/
  takesData : Bool
  /-- The message of its errors, with placeholders. -/
  message : Option String
  /-- The keywords that have to stand beside it. -/
  requires : List String
  /-- The keywords beside it whose work it does. -/
  supersedes : List String
  layout : Layout
  /-- A check of its value, and of the schema around, before anything is compiled. -/
  check : Option (Json → Json → Except SchemaFault Unit)

namespace KeywordDefinition

def plain (keyword : String) (kind : KeywordKind) : KeywordDefinition where
  keyword := keyword
  kind := kind
  types := []
  valueTypes := []
  takesData := false
  message := none
  requires := []
  supersedes := []
  layout := .none
  check := none

/-- What is wrong with a definition, apart from the vocabulary that it comes into. -/
def fault? (d : KeywordDefinition) : Option DefinitionFault :=
  if d.requires.contains d.keyword then some .dependsOnItself
  else
    match d.kind with
    | .expansion _ => if d.takesData then some .expansionTakesData else none
    | .remark => if d.takesData || d.message.isSome then some .annotationReports else none
    | _ => none

end KeywordDefinition

/-- The groups of keywords, by the type of data that they are about. -/
inductive KeywordGroup where
  | untyped
  | number
  | string
  | array
  | object
deriving DecidableEq, Repr, Inhabited

namespace KeywordGroup

def order : List KeywordGroup := [untyped, number, string, array, object]

def of : JsonType → KeywordGroup
  | .number => number
  | .integer => number
  | .string => string
  | .array => array
  | .object => object
  | .null => untyped
  | .boolean => untyped

def type? : KeywordGroup → Option JsonType
  | untyped => none
  | number => some .number
  | string => some .string
  | array => some .array
  | object => some .object

end KeywordGroup

/-- A keyword of a vocabulary: its definition, its message read. -/
structure Keyword extends KeywordDefinition where
  template : Option Template

namespace Keyword

def groups (k : Keyword) : List KeywordGroup :=
  let groups := (k.types.map KeywordGroup.of).eraseDups
  if groups.isEmpty then [.untyped] else groups

def ofDefinition (d : KeywordDefinition) : Except DefinitionFault Keyword := do
  if d.keyword.isEmpty then throw .emptyName
  let template ←
    match d.message with
    | none => pure none
    | some source =>
      match Template.parse source with
      | .ok t => pure (some t)
      | .error fault => throw (.badTemplate source fault)
  match d.fault? with
  | some fault => throw fault
  | none => return { d with template }

end Keyword

/-- Keywords in the order of their definition. -/
structure Vocabulary where
  keywords : List Keyword

namespace Vocabulary

def empty : Vocabulary := ⟨[]⟩

def get? (keyword : String) (v : Vocabulary) : Option Keyword :=
  v.keywords.find? fun k => k.keyword == keyword

def contains (keyword : String) (v : Vocabulary) : Bool := (v.get? keyword).isSome

def add (d : KeywordDefinition) (v : Vocabulary) : Except CompileError Vocabulary :=
  if v.contains d.keyword then .error (.invalidDefinition d.keyword .alreadyDefined)
  else
    match Keyword.ofDefinition d with
    | .ok k => .ok ⟨v.keywords ++ [k]⟩
    | .error fault => .error (.invalidDefinition d.keyword fault)

def ofDefinitions (ds : List KeywordDefinition) : Vocabulary :=
  ds.foldl (fun v d =>
    match v.add d with
    | .ok v => v
    | .error _ => v) empty

end Vocabulary
end SchemaCompiler
