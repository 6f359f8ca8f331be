import SchemaCompiler.Compiler.Dialect

/-!
# Checks before compilation

A whole schema is checked before anything of it is compiled: that its keywords are known, that
their values have the right types, that the keywords they need stand beside them, and what each
keyword checks of its own.
-/
namespace SchemaCompiler.Dialect

def missingSibling? (k : Keyword) (members : List (String × Json)) : Option String :=
  k.requires.find? fun sibling => !Assoc.contains sibling members

def checkValue (d : Dialect) (k : Keyword) (members : List (String × Json)) (path : String)
    (v : Json) : Except CompileError Unit := do
  let valuePath := path ++ "/" ++ Json.Pointer.escape k.keyword
  if !d.refersToData k v && !k.valueTypes.isEmpty && !k.valueTypes.any (·.holds v) then
    throw (.invalidSchema valuePath (.wrongType k.valueTypes))
  match missingSibling? k members with
  | some sibling => throw (.missingSibling k.keyword sibling path)
  | none => return ()

def looksInside (d : Dialect) (k : Keyword) (v : Json) : Bool :=
  !d.refersToData k v &&
    match k.kind with
    | .expansion _ => false
    | _ => true

def checkOwn (k : Keyword) (members : List (String × Json)) (path : String) (v : Json) :
    Except CompileError Unit :=
  match k.check with
  | none => .ok ()
  | some check => (check v (.object members)).mapError (CompileError.invalidSchema path)

mutual
def checkSchema (d : Dialect) (path : String) : Json → Except CompileError Unit
  | .bool _ => .ok ()
  | .object members => checkMembers d path members members
  | _ => .error (.invalidSchema path .notASchema)

def checkMembers (d : Dialect) (path : String) (all : List (String × Json)) :
    List (String × Json) → Except CompileError Unit
  | [] => .ok ()
  | (key, v) :: rest =>
    match d.vocabulary.get? key with
    | none =>
      if d.options.strictness = .error then .error (.unknownKeyword key path)
      else checkMembers d path all rest
    | some k => do
      checkValue d k all path v
      if looksInside d k v then
        let valuePath := path ++ "/" ++ Json.Pointer.escape key
        checkOwn k all valuePath v
        checkLayout d k.layout valuePath v
      checkMembers d path all rest

def checkLayout (d : Dialect) (layout : Layout) (path : String) :
    Json → Except CompileError Unit
  | .array items =>
    match layout with
    | .none => .ok ()
    | .list => checkItems d path 0 items
    | .singleOrList => checkItems d path 0 items
    | .single => .error (.invalidSchema path .notASchema)
    | .map => .error (.invalidSchema path (.notSchemas (.array items)))
  | .object members =>
    match layout with
    | .none => .ok ()
    | .single => checkMembers d path members members
    | .singleOrList => checkMembers d path members members
    | .map => checkMap d path members
    | .list => .error (.invalidSchema path (.notSchemas (.object members)))
  | .bool b =>
    match layout with
    | .none => .ok ()
    | .single => .ok ()
    | .singleOrList => .ok ()
    | _ => .error (.invalidSchema path (.notSchemas (.bool b)))
  | v =>
    match layout with
    | .none => .ok ()
    | .single => .error (.invalidSchema path .notASchema)
    | _ => .error (.invalidSchema path (.notSchemas v))

def checkItems (d : Dialect) (path : String) : Nat → List Json → Except CompileError Unit
  | _, [] => .ok ()
  | i, v :: rest => do
    checkSchema d (path ++ "/" ++ toString i) v
    checkItems d path (i + 1) rest

def checkMap (d : Dialect) (path : String) : List (String × Json) → Except CompileError Unit
  | [] => .ok ()
  | (name, v) :: rest => do
    checkSchema d (path ++ "/" ++ Json.Pointer.escape name) v
    checkMap d path rest
end

end SchemaCompiler.Dialect
