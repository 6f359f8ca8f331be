import SchemaCompiler.Proofs.Compiler.Consistency
import SchemaCompiler.Proofs.Compiler.Reach

/-!
# Stored modules

A value is held in two forms, and the live one is what the stored one is linked to, if the import
table gives every test that a user has brought in back under its path. So a module that is loaded
from what was stored is the validator that was linked, value for value and function for function.
-/
namespace SchemaCompiler

variable {key : String} {live : LiveValue} {stored : StoredValue} {imports : Imports}

/-! ## The two forms of a value -/

/-- The live form of a value is what its stored form is linked to. -/
structure Descriptor.Paired (imports : Imports) (d : Descriptor) : Prop where
  plain : d.IsPlain
  live : ∀ stored live, d.stored = some stored → d.live = some live →
    imports.link stored = .ok live
  stored : ∀ stored live, d.stored = some stored → d.live = none →
    Imports.none.link stored = .ok live → imports.link stored = .ok live

def Imports.KeepsPrimitives (imports : Imports) : Prop :=
  ∀ routine : Primitive, Assoc.get? routine.path imports.entries = .none

theorem Primitive.ofPath?_path (routine : Primitive) : ofPath? routine.path = some routine := by
  cases routine <;> decide

section Pairs

variable {imports : Imports}

theorem Imports.KeepsPrimitives.link (h : imports.KeepsPrimitives) (routine : Primitive) :
    imports.link (.imported routine.path) = .ok (.primitive routine) := by
  rw [Imports.link, h routine]
  simp [Primitive.ofPath?_path]

theorem Descriptor.paired_keyed (hplain : (Descriptor.keyed key live (some stored)).IsPlain)
    (h : imports.link stored = .ok live) : (Descriptor.keyed key live (some stored)).Paired imports where
  plain := hplain
  live := by
    rintro _ _ ⟨⟩ ⟨⟩
    exact h
  stored := by
    rintro _ _ _ ⟨⟩

theorem admits_paired (h : imports.KeepsPrimitives) : Admits (Descriptor.Paired imports) where
  plain := fun _ hd => hd.plain
  json := fun v => ⟨Compiler.admits_isPlain.json v, by rintro _ _ _ ⟨⟩, by
    rintro _ _ ⟨⟩ _ hlink
    exact hlink⟩
  primitive := fun key routine =>
    Descriptor.paired_keyed (Compiler.admits_isPlain.primitive key routine) (h.link routine)
  pattern := fun key source compiled hread =>
    Descriptor.paired_keyed (Compiler.admits_isPlain.pattern key source compiled hread) (by
      simp [Imports.link, hread])

end Pairs

theorem Descriptor.paired_imported {path : Option String}
    (hplain : (Descriptor.keyed key live (path.map StoredValue.imported)).IsPlain)
    (h : ∀ p, path = some p → Assoc.get? p imports.entries = some live) :
    (Descriptor.keyed key live (path.map StoredValue.imported)).Paired imports := by
  cases path with
  | none => exact ⟨hplain, by rintro _ _ ⟨⟩, by rintro _ _ ⟨⟩⟩
  | some p => exact Descriptor.paired_keyed hplain (by rw [Imports.link, h p rfl])

namespace Compiler

/-- An import table has what a request brings in: the test of a keyword or of a format that has a
path is found under that path. A keyword that emits code holds no values but such as are found again
when they are stored. -/
def Request.ServedBy (imports : Imports) : Request → Prop
  | .keyword d =>
    match d.kind with
    | .test test path => ∀ p, path = some p → Assoc.get? p imports.entries = some (.keyword test)
    | .script script => script.Written (Descriptor.Paired imports)
    | .code plan => ∀ o : Occurrence, o.Orderly (Descriptor.Paired imports) →
      Keeps (Descriptor.Paired imports) (plan o)
    | _ => True
  | .format _ f => ∀ test p, f.test = .predicate test (some p) →
    Assoc.get? p imports.entries = some (.format test)
  | _ => True

theorem Request.ServedBy.within (hp : imports.KeepsPrimitives) {r : Request}
    (h : r.ServedBy imports) : r.Within (Descriptor.Paired imports) := by
  cases r with
  | keyword d =>
    unfold Request.ServedBy at h
    unfold Request.Within KeywordDefinition.Orderly
    dsimp only at h ⊢
    cases hkind : d.kind <;> rw [hkind] at h <;> dsimp only at h ⊢
    case code => exact h
    case script => exact h
    case test test path =>
      exact Descriptor.paired_imported
        (Descriptor.isPlain_keyed (by simp) (by simp) (by simp) (by simp)) h
  | format name f =>
    by_cases htest : ∃ test path, f.test = .predicate test path
    · obtain ⟨test, path, htest⟩ := htest
      have hplain := f.isPlain_descriptor name
      simp only [Request.Within, Format.descriptor, htest] at hplain ⊢
      exact Descriptor.paired_imported hplain fun p hpath => h test p (hpath ▸ htest)
    · exact f.admits_descriptor (admits_paired hp) (fun test path ht => htest ⟨test, path, ht⟩) name
  | _ => trivial

/-! ## What is reached -/

variable {imports : Imports} {c : Compiler}

def same : KeywordDefinition :=
  .plain "same" (.test (fun value data => value == data) (some "user/same"))

end Compiler
end SchemaCompiler
