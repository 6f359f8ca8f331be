import SchemaCompiler.Proofs.Compiler.Order

/-!
# Consistency

Between two requests nothing in a compiler is half done: no function is being compiled, every slot is
filled, and whatever names a function names one that is there. So no request, whether it succeeds or
fails, ever fails because a slot was left open.
-/
namespace SchemaCompiler

variable {P : Descriptor → Prop}

/-! ## Requests -/

def Compiler.Request.Within (P : Descriptor → Prop) : Compiler.Request → Prop
  | .keyword d => d.Orderly P
  | .format name f => P (f.descriptor name)
  | _ => True

namespace Compiler

def errorOf {α : Type} : Except CompileError α → Option CompileError
  | .ok _ => none
  | .error e => some e

def error? (c : Compiler) : Request → Option CompileError
  | .keyword d => errorOf (c.addKeyword d).1
  | .format _ _ => none
  | .document schema uri => errorOf (c.addSchema schema uri).1
  | .schema schema => errorOf (c.compile schema).1
  | .uri uri => errorOf (c.getSchema uri).1
  | .stored schema => errorOf (c.compileStored schema).1
  | .loading store schema => errorOf (c.compileLoading store schema).1.1

namespace InOrder

variable {c : Compiler}

theorem ofDialect {d : Dialect} (hd : d.Orderly P) : (ofDialect d).InOrder P where
  program := by
    constructor <;> simp [assembly, Compiler.ofDialect, Assembly.entries, Assembly.slots,
      Assembly.defined, Assembly.checkers, Session.empty, Library.empty, ValueScope.empty]
  dialect := hd
  resources := Resources.sound_empty
  filled := fun _ he => absurd he List.not_mem_nil
  idle := fun _ he => absurd he List.not_mem_nil
  compiled := fun _ he => absurd he List.not_mem_nil
  chain := rfl
  entryDocument := rfl

theorem new (hP : Admits P) (o : Options) : (new o).InOrder P :=
  ofDialect (Dialect.orderly_standard hP o)

theorem compileStored (hP : Admits P) (h : c.InOrder P) (schema : Json) :
    (c.compileStored schema).2.InOrder P ∧ SlotFree (c.compileStored schema).1 := by
  have hafter := ((regime hP).compileEntry h schema).after h
  unfold Compiler.compileStored
  rcases hr : c.compileEntry schema with ⟨e | ⟨entry, isAsync⟩, c'⟩ <;> rw [hr] at hafter
  · exact ⟨hafter.1, .error (hafter.2 e rfl)⟩
  · refine ⟨hafter.1, SlotFree.bind ?_ fun _ => .ok _⟩
    exact hafter.1.slotFree_reachedAs hP (fun _ he => (hafter.1.forms hP he).2.2) entry _

theorem addKeyword (h : c.InOrder P) {d : KeywordDefinition} (hd : d.Orderly P) :
    (c.addKeyword d).2.InOrder P ∧ SlotFree (c.addKeyword d).1 := by
  unfold Compiler.addKeyword
  split
  · rename_i v hv
    obtain ⟨k, hk, hkeywords⟩ := Vocabulary.add_eq_ok hv
    refine ⟨{ h with dialect := ⟨fun x hx => ?_, h.dialect.formats⟩ }, .ok _⟩
    rw [hkeywords, List.mem_append, List.mem_singleton] at hx
    rcases hx with hx | rfl
    · exact h.dialect.keywords x hx
    · rw [hk]
      exact hd
  · rename_i e he
    refine ⟨h, .error ?_⟩
    unfold Vocabulary.add at he
    split at he
    · cases he
      exact id
    · split at he
      · cases he
      · cases he
        exact id

/-- Whatever a compiler is asked for, it is in order afterwards, and no error is about a slot. -/
theorem serve (hP : Admits P) (h : c.InOrder P) {r : Request} (hr : r.Within P) :
    (c.serve r).2.InOrder P ∧ ∀ e, c.error? r = some e → ¬ e.AboutSlot := by
  have herror : ∀ {α : Type} {x : Except CompileError α}, SlotFree x →
      ∀ e, errorOf x = some e → ¬ e.AboutSlot := by
    intro α x hx e he
    cases x with
    | error e' =>
      cases he
      exact hx e rfl
    | ok a => cases he
  cases r with
  | keyword d => exact (h.addKeyword hr).imp_right herror
  | format name f =>
    exact ⟨{ h with dialect := ⟨h.dialect.keywords, h.dialect.formats.insert hr⟩ }, nofun⟩
  | document schema uri =>
    exact (((regime hP).addSchema h schema uri).after h).imp_right herror
  | schema schema => exact ((regime hP).compile h schema).imp_right herror
  | uri uri => exact ((regime hP).getSchema h uri).imp_right herror
  | stored schema => exact (h.compileStored hP schema).imp_right herror
  | loading store schema => exact ((regime hP).loadRounds store schema _ _ h).imp_right herror

end InOrder

theorem inOrder_after (hP : Admits P) (o : Options) {requests : List Request}
    (hr : ∀ r ∈ requests, r.Within P) : (after o requests).InOrder P :=
  after_of_serve (fun _ _ h hw => (h.serve hP hw).1) (.new hP o) hr

/-! ## What holds between requests -/

theorem admits_isPlain : Admits Descriptor.IsPlain where
  plain := fun _ h => h
  json := fun v => by simp [Descriptor.IsPlain, Descriptor.json]
  primitive := fun key routine => by simp [Descriptor.IsPlain, Descriptor.keyed]
  pattern := fun key source compiled _ => by simp [Descriptor.IsPlain, Descriptor.keyed]

/-- A request that any user may make: a keyword that emits code of its own does so with what scripts
are given, and brings in no values that are functions. -/
def Request.Lawful : Request → Prop
  | .keyword d => d.Orderly Descriptor.IsPlain
  | _ => True

theorem Request.Lawful.within {r : Request} (h : r.Lawful) : r.Within Descriptor.IsPlain := by
  cases r with
  | keyword d => exact h
  | format name f => exact f.isPlain_descriptor name
  | _ => trivial

end Compiler
end SchemaCompiler
