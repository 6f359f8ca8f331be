import SchemaCompiler.Decode.Variant
import SchemaCompiler.Program.Stmt
import SchemaCompiler.Program.StoredValue

/-!
# Reading stored programs

The decoders of the JSON form of programs. Expressions and statements nest; their decoders take
the number of levels they may go down, and the nesting of the document is always enough.
-/
namespace SchemaCompiler
open Decode

def Name.decode : Decoder Name := fun source draft => do
  let text ← string source draft
  match Name.ofString? text with
  | some n => .ok n
  | none => fail (.refused (Name.refusal text))

def JsonType.decode : Decoder JsonType := names (JsonType.all.map fun t => (t.name, t))

def BinaryOp.decode : Decoder BinaryOp := names (BinaryOp.operators.map fun op => (op.tag, op))

def exhausted {α : Type} : Decoder α := fun _ _ => fail (.malformed .tooDeep)

namespace Expr

/-- The variants of expressions, for a decoder of the expressions inside them. -/
def variants (sub : Decoder Expr) : List (Variant Expr) :=
  [ around "lit" json lit,
    around "var" Name.decode var,
    sequenced "index" "Expr::Index" (.cons (required "" sub) (.cons (required "" sub) .nil))
      fun (a, k, ()) => index a k,
    sequenced "has" "Expr::Has" (.cons (required "" sub) (.cons (required "" sub) .nil))
      fun (a, k, ()) => has a k,
    around "not" sub not,
    around "and" (list sub) and,
    around "or" (list sub) or,
    sequenced "bin" "Expr::Bin"
      (.cons (required "" BinaryOp.decode) (.cons (required "" sub) (.cons (required "" sub) .nil)))
      fun (op, a, b, ()) => binary op a b,
    sequenced "typeIs" "Expr::TypeIs"
      (.cons (required "" sub) (.cons (required "" JsonType.decode) .nil))
      fun (a, t, ()) => typeIs a t,
    around "len" sub len,
    structured "slice" "Expr::Slice"
      (.cons (required "text" sub)
        (.cons (required "start" sub) (.cons (required "len" Decode.nat) .nil)))
      fun (text, start, n, ()) => slice text start n,
    sequenced "call" "Expr::Call" (.cons (required "" sub) (.cons (required "" (list sub)) .nil))
      fun (callee, args, ()) => call callee args,
    around "await" sub await,
    around "object" (list (pair string sub)) object,
    around "array" (list sub) array,
    bare "errorCount" errorCount ]

def decodeWithin : Nat → Decoder Expr
  | 0 => exhausted
  | levels + 1 => choice (variants (decodeWithin levels))

def decode : Decoder Expr := fun source draft => decodeWithin (draft.depth + 1) source draft

end Expr

namespace Stmt

def ofTry (body : List Stmt) (caught : Option (Name × List Stmt)) (closing : List Stmt) : Stmt :=
  match caught with
  | some (n, handler) => handled body n handler closing
  | none => guarded body closing

/-- The variants of statements, for decoders of the expressions and statements inside them. -/
def variants (value : Decoder Expr) (block : Decoder (List Stmt)) : List (Variant Stmt) :=
  [ structured "let" "Stmt::Let"
      (.cons (required "name" Name.decode) (.cons (optional "value" value)
        (.cons (required "constant" bool) .nil)))
      fun (n, v, constant, ()) => declare n v constant,
    structured "assign" "Stmt::Assign"
      (.cons (required "name" Name.decode) (.cons (required "value" value) .nil))
      fun (n, v, ()) => assign n v,
    structured "setIndex" "Stmt::SetIndex"
      (.cons (required "target" Name.decode) (.cons (required "key" value)
        (.cons (required "value" value) .nil)))
      fun (target, key, v, ()) => setIndex target key v,
    structured "push" "Stmt::Push"
      (.cons (required "target" Name.decode) (.cons (required "value" value) .nil))
      fun (target, v, ()) => push target v,
    around "expr" value expr,
    structured "if" "Stmt::If"
      (.cons (required "cond" value) (.cons (required "then" block)
        (.cons (required "otherwise" block) .nil)))
      fun (condition, yes, no, ()) => branch condition yes no,
    structured "forRange" "Stmt::ForRange"
      (.cons (required "var" Name.decode) (.cons (required "from" value)
        (.cons (required "to" value) (.cons (required "body" block) .nil))))
      fun (var, start, stop, body, ()) => forRange var start stop body,
    structured "forKeys" "Stmt::ForKeys"
      (.cons (required "var" Name.decode) (.cons (required "object" value)
        (.cons (required "body" block) .nil)))
      fun (var, object, body, ()) => forKeys var object body,
    structured "forEach" "Stmt::ForEach"
      (.cons (required "var" Name.decode) (.cons (required "iterable" value)
        (.cons (required "body" block) .nil)))
      fun (var, iterable, body, ()) => forEach var iterable body,
    structured "loop" "Stmt::Loop" (.cons (required "body" block) .nil)
      fun (body, ()) => loop body,
    bare "break" leave,
    around "return" value .return,
    around "throw" value throw,
    structured "try" "Stmt::Try"
      (.cons (required "body" block) (.cons (optional "catch" (pair Name.decode block))
        (.cons (required "finally" block) .nil)))
      fun (body, caught, closing, ()) => ofTry body caught closing,
    around "addError" value addError,
    around "resetErrors" value resetErrors ]

def decodeWithin : Nat → Decoder Stmt
  | 0 => exhausted
  | levels + 1 => choice (variants Expr.decode (list (decodeWithin levels)))

def decode : Decoder Stmt := fun source draft => decodeWithin (draft.depth + 1) source draft

end Stmt

def FunctionDef.decode : Decoder FunctionDef := fun source draft => do
  let (n, params, body, isAsync, ()) ←
    record "struct Function" .ignored
      (.cons (required "name" Name.decode) (.cons (required "params" (list Name.decode))
        (.cons (required "body" (list Stmt.decode))
          (.cons (defaulted "isAsync" bool false) .nil)))) source draft
  return ⟨n, params, body, isAsync⟩

namespace StoredValue

def kinds : List (String × Decoder StoredValue) :=
  [ ("json", fun source draft => (Decode.json source draft).map json),
    ("import", fun source draft => (string source draft).map imported),
    ("regex", fun source draft => (string source draft).map pattern),
    ("function", fun source draft => (Name.decode source draft).map function),
    ("forward", fun source draft => (nat source draft).map forward) ]

def decodeKind : Decoder (Decoder StoredValue) := names kinds

def title : String := "adjacently tagged enum ValueCode"

def flat {α : Type} : Except Failure α → Except Failure α
  | .ok a => .ok a
  | .error failure => fail failure.cause

/-- What has been read of a stored value: nothing, its kind, its content, or all of it. -/
inductive Progress where
  | none
  | kind (reader : Decoder StoredValue)
  | content (draft : Json.Draft)
  | done (value : StoredValue)

/-- Reads one more member. Content that comes before the kind is kept until the kind is known. -/
def advance (source : Source) (key : String) (draft : Json.Draft) :
    Progress → Except Failure Progress
  | .none =>
    if key == "kind" then do
      let reader ← under (.key key) (decodeKind source draft)
      return .kind reader
    else if key == "value" then do
      let _ ← under (.key key) (Decode.json source draft)
      return .content draft
    else do
      stray .ignored [] key draft
      return .none
  | .kind reader =>
    if key == "kind" then fail (.duplicateField key)
    else if key == "value" then do
      let value ← under (.key key) (reader source draft)
      return .done value
    else do
      stray .ignored [] key draft
      return .kind reader
  | .content kept =>
    if key == "kind" then do
      let reader ← under (.key key) (decodeKind source draft)
      let value ← flat (reader .value kept)
      return .done value
    else if key == "value" then fail (.duplicateField key)
    else do
      stray .ignored [] key draft
      return .content kept
  | .done value =>
    if key == "kind" || key == "value" then fail (.duplicateField key)
    else do
      stray .ignored [] key draft
      return .done value

def advanceAll (source : Source) :
    List (String × Json.Draft) → Progress → Except Failure Progress
  | [], progress => .ok progress
  | (key, draft) :: rest, progress => do
    let progress ← advance source key draft progress
    advanceAll source rest progress

def Progress.finish : Progress → Except Failure StoredValue
  | .none => fail (.missingField "kind")
  | .content _ => fail (.missingField "kind")
  | .kind _ => fail (.missingField "value")
  | .done value => .ok value

/-- Reads a stored value, from an object or from an array of kind and content. -/
def decode : Decoder StoredValue
  | source, .object members stop => do
    let progress ← advanceAll source members .none
    under .unread (unbroken stop)
    progress.finish
  | source, .array items stop =>
    match items with
    | [] => do
      unbroken stop
      fail (.invalidLength 0 title)
    | first :: rest => do
      let reader ← under (.item 0) (decodeKind source first)
      match rest with
      | [] =>
        unbroken stop
        fail (.invalidLength 1 title)
      | second :: left =>
        let value ← under (.item 1) (reader source second)
        Fields.closing source items.length left stop
        return value
  | _, draft => mismatch title draft

end StoredValue
end SchemaCompiler
