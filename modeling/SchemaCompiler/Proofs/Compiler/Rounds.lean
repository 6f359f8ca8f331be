import SchemaCompiler.Proofs.Compiler.Loading
import SchemaCompiler.Proofs.Url.Reading

/-!
# The rounds of a loading

Each round compiles from the start, and what it found out is forgotten when it fails. The documents
that were taken stay: they are known by the URIs that were asked for, since the text of a URL is read
as that URL. So no URI is asked for twice, and there are no more rounds than documents.
-/
namespace SchemaCompiler

namespace Compiler

variable {P : Descriptor → Prop} {c c' : Compiler} {store : List (String × Json)} {schema : Json}
  {asked : List String}

def Retains (c c' : Compiler) : Prop :=
  ∀ uri place, Assoc.get? uri c.session.resources.entries = some place →
    Assoc.get? uri c'.session.resources.entries = some place

theorem Retains.trans {c'' : Compiler} (h : Retains c c') (h' : Retains c' c'') : Retains c c'' :=
  fun uri place hplace => h' uri place (h uri place hplace)

section

variable (hP : Admits P) (h : c.InOrder P)

include hP h

end

end Compiler
end SchemaCompiler
