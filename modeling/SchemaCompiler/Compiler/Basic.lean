import SchemaCompiler.Compiler.Node
import SchemaCompiler.StoredModule

/-!
# The compiler

A compiler compiles schemas into validators and into modules that can be stored. It remembers the
documents it was given and what it has compiled. Whatever fails leaves it as it was, but for the
names and the numbers that were given on the way.
-/
namespace SchemaCompiler

/-- A compiler. -/
structure Compiler where
  dialect : Dialect
  library : Library
  session : Session
  /-- The schemas compiled as a whole, by their text: the entry function, and whether it is
  asynchronous. -/
  compiled : List (String × (Name × Bool))
  /-- How many documents have come without a URI. -/
  anonymous : Nat

namespace Compiler

def ofDialect (dialect : Dialect) : Compiler := ⟨dialect, .empty, .empty, [], 0⟩

def new (options : Options) : Compiler := ofDialect (.standard options)

instance : Inhabited Compiler := ⟨new default⟩

def options (c : Compiler) : Options := c.dialect.options

abbrev Result (α : Type) := Except CompileError α × Compiler

/-- How much a compiler held at some time, and how far each of its targets had come. -/
structure Checkpoint where
  scope : ValueScope.Checkpoint
  checkers : Nat
  progress : List Progress
  resources : Nat

def checkpoint (c : Compiler) : Checkpoint where
  scope := c.library.scope.checkpoint
  checkers := c.session.checkers.length
  progress := c.session.targets.map fun (_, t) => t.progress
  resources := c.session.resources.entries.length

def restored (targets : List (String × Target)) (progress : List Progress) :
    List (String × Target) :=
  List.zipWith (fun (key, t) p => (key, { t with progress := p })) targets progress

/-- Forgets what was done since a checkpoint. The names and numbers that were given stay given. -/
def rollback (mark : Checkpoint) (c : Compiler) : Compiler :=
  { c with
    library := { c.library with scope := c.library.scope.rollback mark.scope }
    session :=
      { resources := c.session.resources.rollback mark.resources
        targets := restored c.session.targets mark.progress
        checkers := c.session.checkers.take mark.checkers
        chain := []
        entryDocument := none } }

def undoing {α : Type} (mark : Checkpoint) : Result α → Result α
  | (.ok a, c) => (.ok a, c)
  | (.error e, c) => (.error e, rollback mark c)

/-! ## Keywords, formats and documents -/

def addKeyword (d : KeywordDefinition) (c : Compiler) : Result Unit :=
  match c.dialect.vocabulary.add d with
  | .ok v => (.ok (), { c with dialect := { c.dialect with vocabulary := v } })
  | .error e => (.error e, c)

def addFormat (name : String) (f : Format) (c : Compiler) : Compiler :=
  { c with dialect := { c.dialect with formats := c.dialect.formats.insert name f } }

/-- The URI of a document: the one given, or the one it gives itself, or one of its own. -/
def documentUri (schema : Json) (uri : Option String) (c : Compiler) : Result Url :=
  match uri.or ((schema.get? "$id").bind Json.string?) with
  | some id =>
    ((Url.read id).mapError fun fault => .invalidSchema "#" (.notAbsolute fault), c)
  | none =>
    let n := c.anonymous + 1
    let text := "json-schema:///anonymous" ++ toString n ++ ".json"
    ((Url.read text).mapError fun fault => .invalidSchema "#" (.badUri fault),
      { c with anonymous := n })

def register (schema : Json) (uri : Option String) (c : Compiler) : Result String :=
  match c.documentUri schema uri with
  | (.error e, c) => (.error e, c)
  | (.ok url, c) =>
    match c.dialect.checkSchema "#" schema with
    | .error e => (.error e, c)
    | .ok _ =>
      let (result, resources) :=
        (ExceptT.run (Resources.addDocument schema url)).run c.session.resources
      (result, { c with session := { c.session with resources := resources } })

def addSchema (schema : Json) (uri : Option String) (c : Compiler) : Result String :=
  undoing c.checkpoint (c.register schema uri)

/-! ## Compilation -/

mutual
def weight : Json → Nat
  | .array items => 1 + weightOfItems items
  | .object members => 1 + weightOfMembers members
  | _ => 1

def weightOfItems : List Json → Nat
  | [] => 0
  | v :: rest => weight v + weightOfItems rest

def weightOfMembers : List (String × Json) → Nat
  | [] => 0
  | (_, v) :: rest => weight v + weightOfMembers rest
end

attribute [local instance (high)] Zero.ofOfNat0

/-- A depth that schemas do not go beyond: each schema of each document can be inside each other
one by way of references, and an expansion goes deeper by a little. -/
def depthBound (c : Compiler) : Nat :=
  let n := (c.session.resources.entries.map fun (_, place) => weight place.root).sum
  4 * (n + 2) * (n + 2) + 1000

/-- Compiles the schema that a URI leads to; gives the entry function and whether it is
asynchronous. -/
def compileUri (uri : String) (c : Compiler) : Result (Name × Bool) :=
  match Url.read uri with
  | .error fault => (.error (.invalidSchema uri (.badUri fault)), c)
  | .ok base =>
    match c.session.resources.resolve uri base with
    | .error missing => (.error (.missingReference missing), c)
    | .ok place =>
      let (t, session) := c.session.targetFor place
      let session := { session with entryDocument := some place.document }
      let (result, library, session) :=
        Gen.execute
          (Reference.compileTarget (c.dialect.planTo c.depthBound) t true)
          c.library session
      let c := { c with library := library, session := session }
      match result with
      | .error e => (.error e, c)
      | .ok entry =>
        (.ok (entry, t.isAsync), { c with session := { session with entryDocument := none } })

def compileEntry (schema : Json) (c : Compiler) : Result (Name × Bool) :=
  let text := schema.render
  match Assoc.get? text c.compiled with
  | some known => (.ok known, c)
  | none =>
    let attempt : Result (Name × Bool) :=
      match c.register schema none with
      | (.error e, after) => (.error e, after)
      | (.ok document, after) => after.compileUri document
    match undoing c.checkpoint attempt with
    | (.ok known, c) => (.ok known, { c with compiled := Assoc.insert text known c.compiled })
    | (.error e, c) => (.error e, c)

def functions (c : Compiler) : List (Name × FunctionDef) :=
  c.session.checkers.map fun (name, checker) => (name, checker.code c.options.allErrors name)

def link (entry : Name) (isAsync : Bool) (c : Compiler) : Except CompileError Validator := do
  let reached ← c.library.scope.reachedLive entry c.functions
  return ⟨⟨reached.functions, reached.values, c.options.maxDepth⟩, entry, isAsync⟩

def linked : Result (Name × Bool) → Result Validator
  | (.error e, c) => (.error e, c)
  | (.ok (entry, isAsync), c) => (c.link entry isAsync, c)

def compile (schema : Json) (c : Compiler) : Result Validator := linked (c.compileEntry schema)

def getSchema (uri : String) (c : Compiler) : Result Validator :=
  linked (undoing c.checkpoint (c.compileUri uri))

def compileStored (schema : Json) (c : Compiler) : Result StoredModule :=
  match c.compileEntry schema with
  | (.error e, c) => (.error e, c)
  | (.ok (entry, isAsync), c) =>
    (do
      let reached ← c.library.scope.reachedStored entry c.functions
      return ⟨entry, isAsync, c.options.maxDepth, reached.functions.map Prod.snd,
        reached.values⟩, c)

/-! ## Loading -/

/-- Compiles a schema, taking each document that a reference is missing from a store, `rounds`
times at most. Gives also the URIs that the store was asked for, in order. -/
def loadRounds (store : List (String × Json)) (schema : Json) :
    Nat → List String → Compiler → Result Validator × List String
  | 0, asked, c => (c.compile schema, asked)
  | rounds + 1, asked, c =>
    match c.compile schema with
    | (.error (.missingReference missing), c) =>
      if c.session.resources.contains missing.document then
        ((.error (.unresolvedReference missing), c), asked)
      else
        let asked := asked ++ [missing.document]
        match Assoc.get? missing.document store with
        | none => ((.error (.missingReference missing), c), asked)
        | some document =>
          match c.addSchema document (some missing.document) with
          | (.error e, c) => ((.error e, c), asked)
          | (.ok _, c) => loadRounds store schema rounds asked c
    | other => (other, asked)

/-- Compiles a schema, taking the documents that references are missing from a store. Each document
is taken once, so that there are no more rounds than documents. Gives also the URIs that the store
was asked for, in order. -/
def compileLoading (store : List (String × Json)) (schema : Json) (c : Compiler) :
    Result Validator × List String :=
  loadRounds store schema (store.length + 1) [] c

end Compiler
end SchemaCompiler
