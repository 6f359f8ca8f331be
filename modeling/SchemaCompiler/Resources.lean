import SchemaCompiler.CompileError

/-!
# Resources

The documents that references can lead to. A document is walked once when it is added: every
identifier and every anchor in it becomes a URI that leads to a place of the document. A reference
is resolved against the base in force where it stands.
-/
namespace SchemaCompiler

/-- A place in a document. -/
structure Location where
  /-- The whole document. -/
  root : Json
  /-- The URI of the document, without fragment. -/
  document : String
  /-- The JSON pointer from the root of the document. -/
  pointer : String
  /-- The base that references are resolved against here. -/
  base : Url

namespace Location

def key (l : Location) : String := l.document ++ "#" ++ l.pointer

def schema? (l : Location) : Option Json := Json.Pointer.get? l.pointer l.root

end Location

/-- The known places by their URIs, in the order in which they were added, and the URIs of anchors
that an outer document may override. -/
structure Resources where
  entries : List (String × Location)
  dynamic : List String

namespace Resources

def empty : Resources := ⟨[], []⟩

instance : Inhabited Resources := ⟨empty⟩

def dataMembers : List String := ["enum", "const", "examples", "default"]

def holdsSchemas (key : String) : Bool := !dataMembers.contains key

def contains (uri : String) (r : Resources) : Bool := Assoc.contains uri r.entries

def rollback (count : Nat) (r : Resources) : Resources :=
  let dropped := (r.entries.drop count).map Prod.fst
  ⟨r.entries.take count, r.dynamic.filter fun uri => !dropped.contains uri⟩

/-! ## Adding documents -/

/-- What adds to the known places, or fails; a failure keeps what was added before it. -/
abbrev Indexing (α : Type) := ExceptT CompileError (StateM Resources) α

/-- Adds a URI for a place. A URI that leads to the same place already is left as it is. -/
def register (uri : String) (place : Location) : Indexing Unit := do
  let r ← get
  match Assoc.get? uri r.entries with
  | some known =>
    if known.key = place.key then return ()
    else throw (.invalidSchema place.key (.alreadyIdentifies uri known.key))
  | none => set { r with entries := r.entries ++ [(uri, place)] }

def anchorUri (base : Url) (anchor : String) : String :=
  base.withoutFragment.toText ++ "#" ++ anchor

def textOf (key : String) (members : List (String × Json)) : Option String :=
  (Assoc.get? key members).bind Json.string?

/-- Adds the URIs that an object declares for itself; gives the base inside it. -/
def declare (at_ : Url → Location) (pointer : String) (base : Url)
    (members : List (String × Json)) : Indexing Url := do
  let base ←
    match textOf "$id" members with
    | none => pure base
    | some id =>
      match id.toList with
      | '#' :: anchor => do
        register (anchorUri base (String.ofList anchor)) (at_ base)
        pure base
      | _ =>
        match base.join id with
        | .error fault => throw (.invalidSchema pointer (.badId id fault))
        | .ok inner => do
          let inner := inner.withoutFragment
          register inner.toText (at_ inner)
          pure inner
  match textOf "$anchor" members with
  | none => pure ()
  | some anchor => register (anchorUri base anchor) (at_ base)
  match textOf "$dynamicAnchor" members with
  | none => pure ()
  | some anchor => do
    let uri := anchorUri base anchor
    register uri (at_ base)
    modify fun r => { r with dynamic := r.dynamic ++ [uri] }
  return base

mutual
def walk (root : Json) (document : String) (pointer : String) (base : Url) :
    Json → Indexing Unit
  | .object members => do
    let base ←
      declare (fun b => ⟨root, document, pointer, b⟩) pointer base members
    walkMembers root document pointer base members
  | .array items => walkItems root document pointer base 0 items
  | _ => return ()

def walkMembers (root : Json) (document : String) (pointer : String) (base : Url) :
    List (String × Json) → Indexing Unit
  | [] => return ()
  | (key, v) :: rest => do
    if holdsSchemas key then
      walk root document (pointer ++ "/" ++ Json.Pointer.escape key) base v
    walkMembers root document pointer base rest

def walkItems (root : Json) (document : String) (pointer : String) (base : Url) :
    Nat → List Json → Indexing Unit
  | _, [] => return ()
  | i, v :: rest => do
    walk root document (pointer ++ "/" ++ toString i) base v
    walkItems root document pointer base (i + 1) rest
end

def addDocument (root : Json) (uri : Url) : Indexing String := do
  let uri := uri.withoutFragment
  let document := uri.toText
  register document ⟨root, document, "", uri⟩
  walk root document "" uri root
  return document

/-! ## Resolving references -/

/-- The decimal number that a token spells, leading zeros and a plus sign allowed. -/
def looseIndex? (token : String) : Option Nat :=
  let digits :=
    match token.toList with
    | '+' :: rest => rest
    | cs => cs
  if digits.isEmpty || !digits.all Char.isDigit then none
  else some (digits.foldl (fun n c => n * 10 + (c.toNat - 48)) 0)

def looseStep (token : String) : Json → Option Json
  | .object members => Assoc.get? token members
  | .array items => (looseIndex? token).bind (items[·]?)
  | _ => none

def baseInside (base : Url) (schema : Option Json) : Url :=
  match (schema.bind (Json.get? "$id")).bind Json.string? with
  | none => base
  | some id =>
    if id.startsWith "#" then base
    else
      match base.join id with
      | .ok inner => inner
      | .error _ => base

def baseAlong (base : Url) : List String → Option Json → Url
  | [], _ => base
  | t :: ts, v =>
    let next := v.bind (looseStep (Json.Pointer.unescape t))
    baseAlong (baseInside base next) ts next

def resolve (r : Resources) (reference : String) (base : Url) :
    Except MissingReference Location :=
  let missing : MissingReference := ⟨reference, base⟩
  match base.join reference with
  | .error _ => .error missing
  | .ok target =>
    let fragment := (target.fragment.map Url.decode).getD ""
    let document := target.withoutFragment.toText
    if fragment.isEmpty then
      match Assoc.get? document r.entries with
      | some place => .ok place
      | none => .error missing
    else if fragment.startsWith "/" then
      match Assoc.get? document r.entries with
      | none => .error missing
      | some start =>
        let pointer := start.pointer ++ fragment
        match Json.Pointer.get? pointer start.root with
        | none => .error missing
        | some _ =>
          let base := baseAlong start.base (Json.Pointer.tokens fragment) start.schema?
          .ok ⟨start.root, start.document, pointer, base⟩
    else
      match Assoc.get? (document ++ "#" ++ fragment) r.entries with
      | some place => .ok place
      | none => .error missing

/-- The place of an anchor of a document that may override others of its name. -/
def dynamicAnchor (r : Resources) (document name : String) : Option Location :=
  let uri := document ++ "#" ++ name
  if r.dynamic.contains uri then Assoc.get? uri r.entries else none

end Resources
end SchemaCompiler
