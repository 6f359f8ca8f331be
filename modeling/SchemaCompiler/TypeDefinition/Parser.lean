import SchemaCompiler.TypeDefinition.Options
import SchemaCompiler.TypeDefinition.Unit

/-!
# Parsers

The parser of a type definition is a program that reads the text of a value of its form. The
position in the text is a number that is known before the program runs as long as every token so
far had a fixed length; from the first token that has not, it is a variable that the program moves
on.
-/
namespace SchemaCompiler.TypeDefinition.Parser

/-- The position in the text. -/
inductive Position where
  | known (offset : Nat)
  | moving (name : Name)
deriving DecidableEq, Repr

/-- What the emission of a parser keeps: the functions of names, and the position. -/
structure Progress where
  defined : Defined
  position : Position

abbrev Emit (α : Type) := Gen Progress α

def textName : Name := ⟨"json", Eq.refl true⟩

def positionName : Name := ⟨"pos", Eq.refl true⟩

def parseStem : Stem := .of "parse"

def positionStem : LocalStem := .of "pos"

def startStem : LocalStem := .of "start"

def resultStem : LocalStem := .of "r"

def valueStem : LocalStem := .of "value"

def itemsStem : LocalStem := .of "items"

def objectStem : LocalStem := .of "object"

def tagStem : LocalStem := .of "tag"

def tagStartStem : LocalStem := .of "tagStart"

def seenStem : LocalStem := .of "seen"

/-! ## The position -/

def Position.code : Position → Expr
  | known n => .nat n
  | moving name => .var name

def position : Emit Expr := return (← Gen.session).position.code

def promote : Emit Name := do
  match (← Gen.session).position with
  | .moving name => return name
  | .known n => do
    let name ← Gen.declare positionStem (.nat n)
    Gen.modifySession fun s => { s with position := .moving name }
    return name

def advance (n : Nat) : Emit Unit := do
  match (← Gen.session).position with
  | .known k => Gen.modifySession fun s => { s with position := .known (k + n) }
  | .moving name => Gen.add name (.nat n)

def skipBlanks (options : Options) : Emit Unit :=
  if options.whitespace then do
    let pos ← promote
    let skip ← Gen.primitive .skipWhitespace
    Gen.assign pos (.callName skip [.var textName, .var pos])
  else return ()

/-! ## Tokens -/

def isAt (token : String) : Emit Expr := do
  return .equals (.slice (.var textName) (← position) token.utf8ByteSize) (.str token)

def failAt (message : String) (position : Expr) : Emit Unit :=
  Gen.emit (.throw (.object [("message", .str message), ("position", position)]))

def failHere (message : String) : Emit Unit := do failAt message (← position)

def expect (options : Options) (token : String) : Emit Unit := do
  skipBlanks options
  Gen.ifThen (← isAt token).negate (failHere ("expected '" ++ token ++ "'"))
  advance token.utf8ByteSize

/-- Reads by a primitive routine; gives where the value starts, and the value. -/
def scalar (options : Options) (routine : Primitive) : Emit (Name × Name) := do
  skipBlanks options
  let pos ← promote
  let start ← Gen.constant startStem (.var pos)
  let read ← Gen.primitive routine
  let result ← Gen.constant resultStem (.callName read [.var textName, .var pos])
  Gen.assign pos (.index (.var result) (.nat 1))
  let value ← Gen.constant valueStem (.index (.var result) (.nat 0))
  return (start, value)

def separated (options : Options) (member : Emit Unit) : Emit Unit :=
  Gen.loop do
    member
    skipBlanks options
    Gen.ifElse (← isAt ",") (advance 1) (Gen.emit .leave)

def listed (options : Options) (closing : String) (member : Emit Unit) : Emit Unit := do
  skipBlanks options
  Gen.ifThen (← isAt closing).negate (separated options member)

/-! ## Scalars -/

def tested (options : Options) (test : Name → Emit Expr) (message : String) : Emit Expr := do
  let (start, value) ← scalar options .parseString
  Gen.ifThen (← test value).negate (failAt message (.var start))
  return .var value

def boolean (options : Options) : Emit Expr := do
  skipBlanks options
  let _ ← promote
  let out ← Gen.declare valueStem .null
  let isTrue ← isAt "true"
  let isFalse ← isAt "false"
  Gen.choose
    [(isTrue, do Gen.assign out (.bool true); advance 4),
      (isFalse, do Gen.assign out (.bool false); advance 5)]
    (failHere "expected boolean")
  return .var out

def intCode (i : Int) : Expr := .lit (.number (.int i))

def integer (options : Options) (type : ScalarType) (low high : Int) : Emit Expr := do
  let (start, value) ← scalar options .parseNumber
  let fits := Expr.all [.typeIs (.var value) .integer, .binary .ge (.var value) (intCode low),
    .binary .le (.var value) (intCode high)]
  Gen.ifThen fits.negate (failAt ("expected " ++ type.name) (.var start))
  return .var value

def ofType (options : Options) (type : ScalarType) : Emit Expr :=
  match type.bounds? with
  | some (low, high) => integer options type low high
  | none =>
    match type with
    | .boolean => boolean options
    | .string => do return .var (← scalar options .parseString).2
    | .timestamp =>
      tested options (fun value => do
        let test ← Gen.primitive .isTimestamp
        return .callName test [.var value]) "expected RFC 3339 timestamp"
    | _ => do return .var (← scalar options .parseNumber).2

/-! ## Forms -/

def requireAll (out : Name) (required : List (String × Form)) : Emit Unit :=
  required.forM fun (name, _) =>
    Gen.ifThen (Expr.has (.var out) (.str name)).negate
      (failHere ("missing required property \"" ++ name ++ "\""))

def closeObject (options : Options) (out : Name) (required : List (String × Form)) :
    Emit Unit := do
  expect options "\x7d"
  requireAll out required

/-- Reads the member that holds the tag, which has been read before: once, and no second time. -/
def tagArm (options : Options) (start key : Name) (tag : String) (seen : Name) :
    Expr × Emit Unit :=
  (.equals (.var key) (.str tag), do
    Gen.ifThen (.var seen)
      (failAt ("repeated discriminator tag \"" ++ tag ++ "\"") (.var start))
    Gen.assign seen (.bool true)
    let _ ← scalar options .parseString)

def member (options : Options) (out : Name) (arms : Name → List (Expr × Emit Unit))
    (additional : Bool) (tag : Option (String × Name)) : Emit Unit := do
  let (start, key) ← scalar options .parseString
  expect options ":"
  let tagArms :=
    match tag with
    | some (tag, seen) => [tagArm options start key tag seen]
    | none => []
  Gen.choose (arms key ++ tagArms) <|
    if additional then do
      let (_, value) ← scalar options .parseValue
      Gen.emit (.setIndex out (.var key) (.var value))
    else failAt "unexpected property" (.var start)

/-- Looks for the tag among the members of an object, and reads over the others. -/
def scanTag (options : Options) (tag : String) (pos found foundAt : Name) : Emit Unit :=
  Gen.loop do
    let (_, key) ← scalar options .parseString
    expect options ":"
    Gen.ifThen (.equals (.var key) (.str tag)) do
      skipBlanks options
      Gen.ifThen (← isAt "\"").negate (failHere "discriminator tag must be a string")
      Gen.assign foundAt (.var pos)
      let (_, value) ← scalar options .parseString
      Gen.assign found (.var value)
      Gen.emit .leave
    let _ ← scalar options .parseValue
    skipBlanks options
    Gen.ifThen (← isAt ",").negate (Gen.emit .leave)
    advance 1

/-- Reads an object whose tag selects among the arms: finds the tag, goes back to the first member,
and reads all of them as the tag says. -/
def tagged (options : Options) (tag : String)
    (arms : Name → Name → Name → List (Expr × Emit Unit)) : Emit Expr := do
  skipBlanks options
  let pos ← promote
  let objectStart ← Gen.constant startStem (.var pos)
  expect options "\x7b"
  let membersStart ← Gen.constant startStem (.var pos)
  let found ← Gen.declare tagStem .null
  let foundAt ← Gen.declare tagStartStem (.var pos)
  skipBlanks options
  Gen.ifThen (← isAt "\x7d").negate (scanTag options tag pos found foundAt)
  Gen.ifThen (.equals (.var found) .null)
    (failAt ("missing discriminator tag \"" ++ tag ++ "\"") (.var objectStart))
  Gen.assign pos (.var membersStart)
  let out ← Gen.declare objectStem (.object [(tag, .var found)])
  let seen ← Gen.declare seenStem (.bool false)
  Gen.choose (arms found out seen)
    (failAt "unknown discriminator tag value" (.var foundAt))
  return .var out

mutual
/-- Reads a value of a form; gives what holds it. `onRef` reads a value of the form of a name. -/
def ofForm (options : Options) (onRef : String → Emit Expr) : Form → Emit Expr
  | .empty => do return .var (← scalar options .parseValue).2
  | .ref name => onRef name
  | .type t => ofType options t
  | .enum values =>
    tested options (fun value =>
      return .any (values.map fun v => .equals (.var value) (.str v))) "value is not in the enum"
  | .elements item => do
    expect options "["
    let _ ← promote
    let out ← Gen.declare itemsStem (.array [])
    listed options "]" do
      let value ← ofForm options onRef item
      Gen.emit (.push out value)
    expect options "]"
    return .var out
  | .values item => do
    expect options "\x7b"
    let _ ← promote
    let out ← Gen.declare objectStem (.object [])
    listed options "\x7d" do
      let (_, key) ← scalar options .parseString
      expect options ":"
      let value ← ofForm options onRef item
      Gen.emit (.setIndex out (.var key) value)
    expect options "\x7d"
    return .var out
  | .properties required optional additional => do
    expect options "\x7b"
    if required.isEmpty && optional.isEmpty && !additional then
      expect options "\x7d"
      return .object []
    else
      let _ ← promote
      let out ← Gen.declare objectStem (.object [])
      let arms (key : Name) :=
        memberArms options onRef out key required ++ memberArms options onRef out key optional
      listed options "\x7d" (member options out arms additional none)
      closeObject options out required
      return .var out
  | .discriminator tag mapping =>
    tagged options tag fun found out seen =>
      mappingArms options onRef tag found out seen mapping
  | .nullable form => do
    skipBlanks options
    let _ ← promote
    let out ← Gen.declare valueStem .null
    Gen.ifElse (← isAt "null") (advance 4) do
      let value ← ofForm options onRef form
      Gen.assign out value
    return .var out

def memberArms (options : Options) (onRef : String → Emit Expr) (out key : Name) :
    List (String × Form) → List (Expr × Emit Unit)
  | [] => []
  | (name, form) :: rest =>
    (.equals (.var key) (.str name), do
      let value ← ofForm options onRef form
      Gen.emit (.setIndex out (.str name) value))
      :: memberArms options onRef out key rest

def mappingArms (options : Options) (onRef : String → Emit Expr) (tag : String)
    (found out seen : Name) : List (String × Form) → List (Expr × Emit Unit)
  | [] => []
  | (value, form) :: rest =>
    (.equals (.var found) (.str value), selected options onRef tag out seen form)
      :: mappingArms options onRef tag found out seen rest

def selected (options : Options) (onRef : String → Emit Expr) (tag : String) (out seen : Name) :
    Form → Emit Unit
  | .properties required optional additional => do
    let arms (key : Name) :=
      memberArms options onRef out key required ++ memberArms options onRef out key optional
    separated options (member options out arms additional (some (tag, seen)))
    closeObject options out required
  | _ => throw (.invalidTypeDefinition "/mapping" .notProperties)
end

/-! ## Functions -/

def define (options : Options) (onRef : String → Emit Expr) (name : String) (form : Form) :
    Emit Name := do
  let function ← Gen.onScope (ValueScope.fresh parseStem)
  let before ← Gen.session
  Gen.setSession
    ⟨Assoc.insert name function before.defined, .moving positionName⟩
  Gen.function function [textName, positionName] false do
    let value ← ofForm options onRef form
    Gen.emit (.return (.array [value, ← position]))
  Gen.modifySession fun s => { s with position := before.position }
  return function

/-- Reads a value of the form of a name, by its function. At most `rounds` functions are begun
inside each other. -/
def ofName (options : Options) (definitions : List (String × Form)) :
    Nat → String → Emit Expr
  | rounds, name =>
    match Assoc.get? name definitions with
    | none => throw (undefinedRef name)
    | some form =>
      if !form.hasRef then ofForm options (fun inner => throw (undefinedRef inner)) form
      else do
        let function ←
          match Assoc.get? name (← Gen.session).defined with
          | some function => pure function
          | none =>
            match rounds with
            | 0 => throw (.endless name)
            | rounds + 1 => define options (ofName options definitions rounds) name form
        let pos ← promote
        let result ← Gen.constant resultStem (.callName function [.var textName, .var pos])
        Gen.assign pos (.index (.var result) (.nat 1))
        return .var (← Gen.constant valueStem (.index (.var result) (.nat 0)))

def emitEntry (options : Options) (schema : Schema) : Emit Name := do
  let entry ← Gen.onScope (ValueScope.fresh parseStem)
  Gen.function entry [textName] false do
    let value ←
      ofForm options (ofName options schema.definitions schema.definitions.length) schema.root
    skipBlanks options
    let stop ← position
    Gen.ifThen (.differs (.len (.var textName)) stop)
      (failHere "unexpected input after the value")
    Gen.emit (.return (.array [value, stop]))
  return entry

end Parser

/-- The parser of a type definition. -/
structure Parser extends Compiled

/-- What comes of a text: its value, or a message; each with a position in bytes. -/
inductive ParseOutcome where
  | parsed (value : Json) (position : Nat)
  | failed (message : String) (position : Nat)
deriving DecidableEq

namespace Parser

def compile (options : Options) (definition : Json) : Except CompileError Parser := do
  let schema ← Schema.ofJson definition
  let compiled ← Compiled.ofEmission options.maxDepth ⟨[], .known 0⟩ (emitEntry options schema)
  return ⟨compiled⟩

def positionOf (v : Option Json) : Nat := ((v.bind Json.unsigned?)).getD 0

def parse (p : Parser) (text : String) : ParseOutcome :=
  match Machine.run p.program p.entry [.string text] with
  | .error e => .failed e.message 0
  | .ok outcome =>
    match outcome.result with
    | .ok (.array [value, stop]) => .parsed value (positionOf (some stop))
    | .ok other => .failed ("parser returned " ++ other.render) 0
    | .error thrown =>
      .failed (((thrown.get? "message").bind Json.string?).getD "parse error")
        (positionOf (thrown.get? "position"))

end Parser
end SchemaCompiler.TypeDefinition
