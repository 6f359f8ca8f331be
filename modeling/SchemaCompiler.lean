import SchemaCompiler.Main
import SchemaCompiler.Proofs.Compiler.Atomicity
import SchemaCompiler.Proofs.Compiler.Formats
import SchemaCompiler.Proofs.Compiler.Fragments
import SchemaCompiler.Proofs.Compiler.Rounds
import SchemaCompiler.Proofs.Compiler.Storing
import SchemaCompiler.Proofs.ErrorModes
import SchemaCompiler.Proofs.Json.Equality
import SchemaCompiler.Proofs.Machine.Counter
import SchemaCompiler.Proofs.Nesting
import SchemaCompiler.Proofs.Program.ReadBack
import SchemaCompiler.Proofs.Templates
import SchemaCompiler.Proofs.TypeDefinition.Blanks
import SchemaCompiler.Proofs.TypeDefinition.Compiling
import SchemaCompiler.Proofs.TypeDefinition.Parsing.Safety
import SchemaCompiler.Proofs.Builder
