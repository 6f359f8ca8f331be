import SchemaCompiler.Keyword.Applicator
import SchemaCompiler.Keyword.Core
import SchemaCompiler.Keyword.Discriminator

/-!
# Dialects

A dialect is all that decides what a schema means: the options, the keywords and the formats.
-/
namespace SchemaCompiler

/-- The keywords that are always there, with the discriminator where it is asked for. -/
def Vocabulary.standard (discriminator : Bool) : Vocabulary :=
  .ofDefinitions (Core.definitions ++ Assertion.definitions ++ Applicator.definitions
    ++ if discriminator then [Discriminator.definition] else [])

/-- What schemas mean. -/
structure Dialect where
  options : Options
  vocabulary : Vocabulary
  formats : Formats

namespace Dialect

/-- The dialect of options, with the keywords and formats that are always there. -/
def standard (options : Options) : Dialect :=
  ⟨options, .standard options.discriminator, .standard⟩

instance : Inhabited Dialect := ⟨standard default⟩

/-- Whether a value is a pointer into the data: an object with the one member `$data`. -/
def isDataReference : Json → Bool
  | .object [(key, .string _)] => key == "$data"
  | _ => false

/-- Whether the value of a keyword is a pointer into the data that is allowed there. -/
def refersToData (d : Dialect) (k : Keyword) (v : Json) : Bool :=
  d.options.dataReferences && k.takesData && isDataReference v

end Dialect
end SchemaCompiler
