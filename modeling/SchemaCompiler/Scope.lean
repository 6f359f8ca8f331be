import SchemaCompiler.CompileError
import SchemaCompiler.Program.Fresh
import SchemaCompiler.Program.Stmt

/-!
# Value scopes

A value scope holds the values that compiled functions refer to by name. A value that is asked for
twice is held once. A slot stands for a function that is still being compiled; it is filled when
the function is done. What an entry function can reach is taken out of the scope, with every value
either live or in its stored form.
-/
namespace SchemaCompiler

/-- A value to be held: what tells it from others, and the forms in which it can be had. -/
structure Descriptor where
  /-- Values with the same key are the same. -/
  key : Option String
  /-- Live values with the same identity are the same. -/
  identity : Option Nat
  live : Option LiveValue
  stored : Option StoredValue

/-- By what a value is recognised when it is asked for again. -/
inductive Recognition where
  | key (key : String)
  | identity (number : Nat)
  | stored (value : StoredValue)
deriving DecidableEq

namespace Descriptor

def keyed (key : String) (live : LiveValue) (stored : Option StoredValue) : Descriptor :=
  ⟨some key, none, some live, stored⟩

def json (value : Json) : Descriptor := ⟨none, none, none, some (.json value)⟩

def primitive (routine : Primitive) : Descriptor :=
  keyed routine.path (.primitive routine) (some (.imported routine.path))

/-- By what a value is recognised: its key before its identity before its stored form. -/
def recognition (d : Descriptor) : Option Recognition :=
  match d.key, d.identity, d.stored with
  | some key, _, _ => some (.key key)
  | none, some number, _ => some (.identity number)
  | none, none, some value => some (.stored value)
  | none, none, none => none

end Descriptor

/-- A value that is held. -/
structure ValueScope.Entry where
  name : Name
  /-- The stem of the name, and by what the value is recognised. -/
  recognition : Option (String × Recognition)
  live : Option LiveValue
  stored : Option StoredValue

/-- The values of a program, the functions that slots stand for, and the names given. -/
structure ValueScope where
  names : Counters
  entries : List ValueScope.Entry
  slots : List (Option Name)

/-- What an entry function reaches: functions in the order of their definition, and values in the
order in which they were first asked for. -/
structure Reached (τ : Type) where
  functions : List (Name × FunctionDef)
  values : List (Name × τ)

namespace ValueScope

def empty : ValueScope := ⟨.empty, [], []⟩

instance : Inhabited ValueScope := ⟨empty⟩

def fresh (stem : Stem) (scope : ValueScope) : Name × ValueScope :=
  let (name, names) := scope.names.next stem
  (name, { scope with names := names })

def recognise (mark : Option (String × Recognition)) (scope : ValueScope) : Option Entry :=
  match mark with
  | none => none
  | some mark => scope.entries.find? fun e => e.recognition == some mark

def value (stem : Stem) (d : Descriptor) (scope : ValueScope) : Name × ValueScope :=
  let mark := d.recognition.map fun r => (stem.text, r)
  match scope.recognise mark with
  | some e => (e.name, scope)
  | none =>
    let (name, scope) := scope.fresh stem
    (name, { scope with entries := scope.entries ++ [⟨name, mark, d.live, d.stored⟩] })

def get? (name : Name) (scope : ValueScope) : Option Entry :=
  scope.entries.find? fun e => e.name == name

/-- The stem of values that stand for a function that is still being compiled. -/
def wrapperStem : Stem := .of "wrapper"

def reserve (key : String) (scope : ValueScope) : Nat × Name × ValueScope :=
  let slot := scope.slots.length
  let d := Descriptor.keyed key (.forward slot) (some (.forward slot))
  let (name, scope) := { scope with slots := scope.slots ++ [none] }.value wrapperStem d
  (slot, name, scope)

def fill (slot : Nat) (function : Name) (scope : ValueScope) : Except Misuse ValueScope :=
  if slot < scope.slots.length then
    .ok { scope with slots := scope.slots.set slot (some function) }
  else .error (.noSuchSlot scope.slots.length slot)

/-- How much a scope held at some time. -/
structure Checkpoint where
  entries : Nat
  slots : Nat
deriving DecidableEq, Repr

def checkpoint (scope : ValueScope) : Checkpoint := ⟨scope.entries.length, scope.slots.length⟩

def rollback (mark : Checkpoint) (scope : ValueScope) : ValueScope :=
  { scope with entries := scope.entries.take mark.entries, slots := scope.slots.take mark.slots }

def rollbackTo (mark : Checkpoint) (scope : ValueScope) : Except Misuse ValueScope :=
  if mark.entries ≤ scope.entries.length then .ok (scope.rollback mark)
  else .error (.rollbackAhead mark.entries scope.entries.length)

/-! ## What an entry function reaches -/

/-- The function that a slot stands for; `owner` is the value that stands for the slot. -/
def slotFunction (slot : Nat) (owner : Name) (scope : ValueScope) : Except CompileError Name :=
  match scope.slots[slot]? with
  | some (some function) => .ok function
  | _ => .error (.unfilledSlot owner)

def follow (e : Entry) (scope : ValueScope) : Except CompileError (Option Name) :=
  match e.live, e.stored with
  | some (.function name), _ => .ok (some name)
  | _, some (.function name) => .ok (some name)
  | some (.forward slot), _ => (scope.slotFunction slot e.name).map some
  | _, some (.forward slot) => (scope.slotFunction slot e.name).map some
  | _, _ => .ok none

/-- Every name met from the names of a stack on, each once, the latest first. -/
def reach (functions : List (Name × FunctionDef)) (scope : ValueScope) :
    Nat → List Name → List Name → Except CompileError (List Name)
  | 0, _, seen => .ok seen
  | _ + 1, [], seen => .ok seen
  | fuel + 1, name :: stack, seen =>
    if seen.contains name then reach functions scope fuel stack seen
    else
      match Assoc.get? name functions with
      | some f =>
        reach functions scope fuel (f.referencedNames.reverse ++ stack) (name :: seen)
      | none =>
        match scope.get? name with
        | none => reach functions scope fuel stack (name :: seen)
        | some e => do
          match ← scope.follow e with
          | some next => reach functions scope fuel (next :: stack) (name :: seen)
          | none => reach functions scope fuel stack (name :: seen)

attribute [local instance (high)] Zero.ofOfNat0

/-- A bound on how many names are met: each function gives its names once, and each value leads on
to one function at most. -/
def reachBound (functions : List (Name × FunctionDef)) (scope : ValueScope) : Nat :=
  2 + scope.entries.length + (functions.map fun (_, f) => f.referencedNames.length).sum

/-- The functions and the entries that a function reaches. A name of both is that of a function. -/
def reachable (entry : Name) (functions : List (Name × FunctionDef)) (scope : ValueScope) :
    Except CompileError (List (Name × FunctionDef) × List Entry) := do
  let seen ← reach functions scope (reachBound functions scope) [entry] []
  let met := functions.filter fun (name, _) => seen.contains name
  let values := scope.entries.filter fun e =>
    seen.contains e.name && !Assoc.contains e.name functions
  return (met, values)

def liveForm (e : Entry) (scope : ValueScope) : Except CompileError LiveValue :=
  match e.live, e.stored with
  | some (.forward slot), _ => (scope.slotFunction slot e.name).map LiveValue.function
  | some live, _ => .ok live
  | none, some (.forward slot) => (scope.slotFunction slot e.name).map LiveValue.function
  | none, some stored =>
    (Imports.none.link stored).mapError fun fault =>
      .invalidSchema e.name.text (.unlinked fault)
  | none, none => .error (.notStorable e.name)

def storedForm (e : Entry) (scope : ValueScope) : Except CompileError StoredValue :=
  match e.stored with
  | some (.forward slot) => (scope.slotFunction slot e.name).map StoredValue.function
  | some stored => .ok stored
  | none => .error (.notStorable e.name)

def reachedAs {τ : Type} (form : Entry → Except CompileError τ) (entry : Name)
    (functions : List (Name × FunctionDef)) (scope : ValueScope) :
    Except CompileError (Reached τ) := do
  let (functions, entries) ← scope.reachable entry functions
  let values ← entries.mapM fun e => do
    let v ← form e
    return (e.name, v)
  return ⟨functions, values⟩

def reachedLive (entry : Name) (functions : List (Name × FunctionDef)) (scope : ValueScope) :
    Except CompileError (Reached LiveValue) :=
  scope.reachedAs (fun e => scope.liveForm e) entry functions

def reachedStored (entry : Name) (functions : List (Name × FunctionDef)) (scope : ValueScope) :
    Except CompileError (Reached StoredValue) :=
  scope.reachedAs (fun e => scope.storedForm e) entry functions

end ValueScope
end SchemaCompiler
