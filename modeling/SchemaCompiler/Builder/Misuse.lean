import SchemaCompiler.Program.Name

/-!
# Misuse of the code builder

What whoever emits code can do wrong: ask for a name under an unfit prefix, open and close
constructs out of step, or point at something that a scope does not hold. None of this depends on
the schema that is compiled.
-/
namespace SchemaCompiler

/-- The kind of a construct that is opened and closed. -/
inductive BlockKind where
  | branch
  | loop
  | function
  | guard
deriving DecidableEq, Repr, Inhabited

def BlockKind.word : BlockKind → String
  | branch => "if"
  | loop => "for"
  | function => "func"
  | guard => "try"

/-- A misuse of the builder. The innermost open construct is given by its kind, if there is one. -/
inductive Misuse where
  | reservedPrefix (text : String)
  | prefixEndsInDigit (text : String)
  | invalidName (text : String)
  | elseIfWithoutIf (top : Option BlockKind)
  | elseWithoutIf (top : Option BlockKind)
  | catchWithoutTry (top : Option BlockKind)
  | finallyWithoutTry (top : Option BlockKind)
  | nestedFunction (depth : Nat)
  | wrongClose (expected : BlockKind) (top : Option BlockKind)
  | crossesBlock (kind : BlockKind)
  | noBlock
  | closedPastStart (depth start : Nat)
  | wrongCount (found expected : Nat)
  | unfinished (depth : Nat) (top : BlockKind)
  | unfinishedBlock
  | statementsOutside (count : Nat)
  | noSuchSlot (count slot : Nat)
  | rollbackAhead (start count : Nat)
deriving DecidableEq, Repr

namespace Misuse

def describe : Option BlockKind → String
  | some kind => kind.word
  | none => "empty stack"

def message : Misuse → String
  | reservedPrefix text =>
    "CodeBuilder: prefix " ++ Text.quoted text ++ " is reserved for scope values"
  | prefixEndsInDigit text =>
    "CodeBuilder: prefix " ++ Text.quoted text ++ " must not end in a digit"
  | invalidName text => "CodeBuilder: " ++ Name.refusal text
  | elseIfWithoutIf top => "CodeBuilder: else-if without if (top: " ++ describe top ++ ")"
  | elseWithoutIf top => "CodeBuilder: else without if (top: " ++ describe top ++ ")"
  | catchWithoutTry top => "CodeBuilder: catch without try (top: " ++ describe top ++ ")"
  | finallyWithoutTry top => "CodeBuilder: finally without try (top: " ++ describe top ++ ")"
  | nestedFunction depth =>
    "CodeBuilder: functions must be defined at top level (open: " ++ toString depth ++ ")"
  | wrongClose expected top =>
    "CodeBuilder: expected to close " ++ expected.word ++ ", found " ++ describe top
  | crossesBlock kind =>
    "CodeBuilder: closing " ++ kind.word ++ " would cross a self-balancing block boundary"
  | noBlock => "CodeBuilder: end_block outside of a self-balancing block"
  | closedPastStart depth start =>
    "CodeBuilder: block closed past its start (" ++ toString depth ++ " < " ++ toString start ++ ")"
  | wrongCount found expected =>
    "CodeBuilder: wrong number of open constructs: " ++ toString found ++ " vs "
      ++ toString expected ++ " expected"
  | unfinished depth top =>
    "CodeBuilder: finished with " ++ toString depth ++ " open block(s), innermost " ++ top.word
  | unfinishedBlock => "CodeBuilder: finished inside a self-balancing block"
  | statementsOutside count =>
    "CodeBuilder: " ++ toString count ++ " statement(s) emitted outside any function"
  | noSuchSlot count slot =>
    "index out of bounds: the len is " ++ toString count ++ " but the index is " ++ toString slot
  | rollbackAhead start count =>
    "slice index starts at " ++ toString start ++ " but ends at " ++ toString count

end Misuse
end SchemaCompiler
