import SchemaCompiler.Decode.Failure
import SchemaCompiler.Machine.LiveValue

/-!
# Faults of running programs

A fault is a defect of the program that runs, not a verdict on its data. All wordings are here.
-/
namespace SchemaCompiler

/-- A value of the wrong kind. -/
inductive TypeFault where
  | cannotSet (key target : Json)
  | cannotPush (target : Json)
  | notJson (name : Name)
  | noLength (value : Json)
  | notIndex (value : Json)
  | notNumber (value : Json)
  | notCallable (name : Name)
  | onlyNames
  | patternOn (value : Json)

def TypeFault.message : TypeFault → String
  | cannotSet key target => "cannot set " ++ key.render ++ " on " ++ target.render
  | cannotPush target => "cannot push onto " ++ target.render
  | notJson name => name.text ++ " is not a JSON value"
  | noLength value => value.render ++ " has no length"
  | notIndex value => value.render ++ " is not an index"
  | notNumber value => value.render ++ " is not a number"
  | notCallable name => name.text ++ " is not callable"
  | onlyNames => "only names are callable"
  | patternOn value => "pattern applied to " ++ value.render

/-- What is wrong with a module as a whole. -/
inductive Malformation where
  | noFunction (name : Name)
  | unboundName (name : Name)
  | unboundLocal (name : Name)
  | neverResolved (name : Name)
  | entryUndefined (name : Name)
  | unlinked (name : Name) (fault : LinkFault)
  | unreadable (failure : Decode.Failure)
  | errorRecord (failure : Decode.Failure)
  | unexpectedResult (value : Json)
  | endless

def Malformation.message : Malformation → String
  | noFunction name => "no function named " ++ name.text
  | unboundName name => "unbound name " ++ name.text
  | unboundLocal name => "unbound local " ++ name.text
  | neverResolved name => name.text ++ " was never resolved"
  | entryUndefined name => "entry " ++ name.text ++ " is not defined"
  | unlinked name fault => name.text ++ ": " ++ fault.message
  | unreadable failure => failure.located
  | errorRecord failure => "error record: " ++ failure.message
  | unexpectedResult value => "serializer returned " ++ value.render
  | endless => "a loop does not come to its end"

/-- Why a run gives no result. -/
inductive RuntimeError where
  | depthExceeded (limit : Nat)
  | uncaught (value : Json)
  | type (fault : TypeFault)
  | malformed (fault : Malformation)
  | outOfBounds (length index : Nat)

def RuntimeError.message : RuntimeError → String
  | depthExceeded limit => "maximum call depth " ++ toString limit ++ " exceeded"
  | uncaught value => "uncaught exception: " ++ value.render
  | type fault => "type error: " ++ fault.message
  | malformed fault => "malformed module: " ++ fault.message
  | outOfBounds length index =>
    "index out of bounds: the len is " ++ toString length ++ " but the index is " ++ toString index

end SchemaCompiler
