import SchemaCompiler.Emission
import SchemaCompiler.Machine.Basic
import SchemaCompiler.Program.Render
import SchemaCompiler.TypeDefinition.Form

/-!
# Programs for type definitions

What the parser and the serializer of a type definition have in common. A name that a definition
refers to stands for one function, which is compiled once, unless its form has no references: that
is put in the place of the reference.
-/
namespace SchemaCompiler.TypeDefinition

/-- A program with an entry function. -/
structure Compiled where
  program : Program
  entry : Name

namespace Compiled

def source (c : Compiled) : String :=
  "\n".intercalate (c.program.functions.map fun (_, f) => f.render)

/-- Runs an emission that gives the entry function, and links what it emitted. -/
def ofEmission {σ : Type} (maxDepth : Nat) (start : σ) (emission : Gen σ Name) :
    Except CompileError Compiled := do
  let (entry, library, _) := Gen.execute emission Library.empty start
  let entry ← entry
  let reached ← library.scope.reachedLive entry library.functions
  return ⟨⟨reached.functions, reached.values, maxDepth⟩, entry⟩

end Compiled

/-- The functions that names of a type definition stand for, as far as they are compiled. -/
abbrev Defined := List (String × Name)

def undefinedRef (name : String) : CompileError := .invalidTypeDefinition "" (.undefinedRef name)

end SchemaCompiler.TypeDefinition
