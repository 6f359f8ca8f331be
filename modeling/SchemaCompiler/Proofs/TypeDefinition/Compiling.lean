import Mathlib.Data.List.Perm.Subperm
import SchemaCompiler.Proofs.TypeDefinition.Accepted
import SchemaCompiler.Proofs.TypeDefinition.Closure

/-!
# Type definitions compile

Parsers and serializers are made of every type definition that can be read, however its names refer to
each other. Besides the entry function there is at most one function for each name.
-/
namespace SchemaCompiler.TypeDefinition

variable {definitions : List (String × Form)} {entry : Name}

namespace Compiled

/-- The functions of a program, besides its entry function, belong to names, each to one. -/
structure OneEach (definitions : List (String × Form)) (c : Compiled) : Prop where
  made : ∃ functionOf : String → Option Name, ∀ f ∈ c.program.functions.map Prod.fst,
    f = c.entry ∨ ∃ d ∈ definitions, functionOf d.1 = some f
  nodup : (c.program.functions.map Prod.fst).Nodup
  length_le : c.program.functions.length ≤ definitions.length + 1

end Compiled

theorem Leaves.length_le {l : Library} (h : Leaves definitions entry l) :
    l.functions.length ≤ definitions.length + 1 := by
  obtain ⟨functionOf, hmade⟩ := h.made
  have hsubset : l.functions.map Prod.fst ⊆
      entry :: definitions.filterMap fun d => functionOf d.1 := by
    intro f hf
    rcases hmade f hf with rfl | ⟨d, hd, hof⟩
    · exact List.mem_cons_self
    · exact List.mem_cons_of_mem _ (List.mem_filterMap.2 ⟨d, hd, hof⟩)
  have hlength := (h.nodup.subperm hsubset).length_le
  have hfilter := List.length_filterMap_le (fun d : String × Form => functionOf d.1) definitions
  simp only [List.length_map, List.length_cons] at hlength
  omega

theorem exists_ofEmission_oneEach {σ : Type} {emission : Gen σ Name} {start : σ} (maxDepth : Nat)
    (h : Gen.Emits emission ⟨.empty, [], .empty, start⟩
      fun entry c _ => Leaves definitions entry c.library) :
    ∃ c, Compiled.ofEmission maxDepth start emission = .ok c ∧ c.OneEach definitions := by
  obtain ⟨entry, a, code, hran, hleaves⟩ := (h []).resolve_right And.left
  obtain ⟨reached, hreached, hlinked⟩ := (hleaves.links entry).live
  have hkeys := hlinked.functions_sublist.map Prod.fst
  obtain ⟨functionOf, hmade⟩ := hleaves.made
  exact ⟨_, Compiled.ofEmission_eq_ok hran hreached,
    ⟨functionOf, fun f hf => hmade f (hkeys.subset hf)⟩, hleaves.nodup.sublist hkeys,
    hlinked.functions_sublist.length_le.trans hleaves.length_le⟩

/-- Every type definition that can be read has a parser and a serializer, in which at most one
function belongs to each of its names. -/
theorem compiles_of_read (options : Options) {definition : Json} {schema : Schema}
    (h : Schema.ofJson definition = .ok schema) :
    (∃ p, Parser.compile options definition = .ok p ∧ p.OneEach schema.definitions) ∧
      ∃ s, Serializer.compile options definition = .ok s ∧ s.OneEach schema.definitions := by
  have hw := Schema.wellFormed_of_ofJson h
  constructor
  · obtain ⟨c, hc, hone⟩ := exists_ofEmission_oneEach options.maxDepth
      (Parser.leaves_emitEntry options (.inr hw))
    exact ⟨⟨c⟩, by rw [Parser.compile, h]; simp only [bind, Except.bind, hc]; rfl, hone⟩
  · obtain ⟨c, hc, hone⟩ := exists_ofEmission_oneEach options.maxDepth
      (Serializer.leaves_emitEntry (.inr hw))
    exact ⟨⟨c⟩, by rw [Serializer.compile, h]; simp only [bind, Except.bind, hc]; rfl, hone⟩

/-- Two names that refer to each other. -/
theorem compiles_of_read_of_cycle :
    let definition : Json := .object [("definitions", .object [
      ("a", .object [("elements", .object [("ref", .string "b")])]),
      ("b", .object [("elements", .object [("ref", .string "a")])])]), ("ref", .string "a")]
    ∃ schema, Schema.ofJson definition = .ok schema ∧
      (∃ p, Parser.compile .standard definition = .ok p ∧ p.OneEach schema.definitions) ∧
      ∃ s, Serializer.compile .standard definition = .ok s ∧ s.OneEach schema.definitions :=
  ⟨_, rfl, compiles_of_read .standard rfl⟩

end SchemaCompiler.TypeDefinition
