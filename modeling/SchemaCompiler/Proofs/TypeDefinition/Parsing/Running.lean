import SchemaCompiler.Proofs.TypeDefinition.Linking
import SchemaCompiler.Proofs.TypeDefinition.Parsing.Functions

/-!
# Running a parser

A parser reads what the scan of its type definition reads. How deep its functions may call each other
is how deep the scan may unfold names; the entry function itself takes one of the calls.
-/
namespace SchemaCompiler.TypeDefinition.Parser

open Machine Text

variable {basis : Basis} {a : Assembly Progress} {root : Form} {entry f : Name} {fd : FunctionDef}
  {text : String} {schema : Schema} {options : Options} {definition : Json}

def nested (p : Program) (left : Nat) (f : Name) : Call :=
  ⟨callFunction p roundLimit left f, callLooks p roundLimit left f⟩

def wholeSetting (basis : Basis) (a : Assembly Progress) (maxDepth left : Nat) (text : String) :
    Setting where
  env := ⟨a.library.whole maxDepth, callFunction (a.library.whole maxDepth) roundLimit left, roundLimit⟩
  inside := callLooks (a.library.whole maxDepth) roundLimit left
  text := text
  call := Schema.scanCall basis.ws basis.definitions left

section

variable (hfd : Assoc.get? f a.library.functions = some fd)

include hfd

theorem call_wholeSetting (maxDepth left : Nat) :
    (wholeSetting basis a maxDepth left text).watch.call f =
      nested (a.library.whole maxDepth) left f := by
  have hfunction : (wholeSetting basis a maxDepth left text).env.program.function? f = some fd := hfd
  have hrun : callName (wholeSetting basis a maxDepth left text).env f =
      callFunction (a.library.whole maxDepth) roundLimit left f := by
    funext args
    simp [callName, hfunction]
    rfl
  exact congrArg (Call.mk · _) hrun

theorem nested_zero (maxDepth : Nat)
    (args : List Json) (s : State) : ran ((nested (a.library.whole maxDepth) 0 f).run args) s =
      (.error (.fault (.depthExceeded maxDepth)), s) := by
  have hfunction : (a.library.whole maxDepth).function? f = some fd := hfd
  show ran (callFunction _ roundLimit 0 f args) s = _
  rw [callFunction, hfunction]
  rfl

theorem nested_succ (maxDepth left : Nat) :
    nested (a.library.whole maxDepth) (left + 1) f =
      (wholeSetting basis a maxDepth left text).watch.invoke fd := by
  have hfunction : (a.library.whole maxDepth).function? f = some fd := hfd
  have hcallee : (a.library.whole maxDepth).callee? f = some fd := by
    simp [Program.callee?, hfunction]
  refine Call.mk.injEq .. |>.mpr ⟨?_, ?_⟩
  · funext args
    rw [callFunction, hfunction]
    rfl
  · funext args s x u
    refine propext ⟨?_, fun h => ⟨fd, hcallee, h⟩⟩
    rintro ⟨g, hg, h⟩
    cases hcallee.symm.trans hg
    exact h

end

/-- With so many calls left the functions of a program do as the scans of their names with so many
unfoldings. -/
theorem Complete.serves (h : Complete basis root entry a) (hsmall : text.utf8ByteSize ≤ recordLimit)
    (maxDepth left : Nat) : Serves (wholeSetting basis a maxDepth left text) a := by
  have hroutines : ∀ left routine k, Library.routineEntry routine k ∈ a.library.scope.entries →
      (wholeSetting basis a maxDepth left text).watch.Routine (Gen.routineStem.name k) routine := by
    intro left routine k he
    refine ⟨h.tidy.get?_functions he, h.tidy.value?_whole he, fun values s x u hlooks => ?_⟩
    have hcallee : (a.library.whole maxDepth).callee? (Gen.routineStem.name k) = none := by
      simp only [Program.callee?, h.tidy.value?_whole he,
        show (a.library.whole maxDepth).function? (Gen.routineStem.name k) = none from
          h.tidy.get?_functions he]
    cases left with
    | zero => exact hlooks
    | succ left =>
      obtain ⟨g, hg, -⟩ := hlooks
      rw [hcallee] at hg
      cases hg
  induction left with
  | zero =>
    refine ⟨hsmall, rfl, hroutines 0, fun name f hf => ?_⟩
    obtain ⟨form, fd, -, hfd, -⟩ := h.finished name f hf
    rw [call_wholeSetting hfd]
    exact fun before cs s _ _ => ⟨fun _ _ h => h.elim, _, s, nested_zero hfd .., .inr ⟨_, rfl⟩⟩
  | succ left ih =>
    refine ⟨hsmall, rfl, hroutines (left + 1), fun name f hf => ?_⟩
    obtain ⟨form, fd, hform, hfd, hreturns⟩ := h.finished name f hf
    have hscan : Schema.scanCall basis.ws basis.definitions (left + 1) name =
        form.scan basis.ws (basis.onRef (Schema.scanCall basis.ws basis.definitions left)) := by
      rw [Schema.scanCall, hform]
      rfl
    rw [call_wholeSetting hfd, nested_succ hfd]
    show Returns text _ (Schema.scanCall basis.ws basis.definitions (left + 1) name)
    rw [hscan]
    exact hreturns _ ih

/-! ## Whole texts -/

variable (p : Parser)

def call : Call := nested p.program p.program.maxDepth p.entry

def Finds (text : String) (v : Json) : Prop :=
  run p.program p.entry [.string text] =
      .ok ⟨.ok (.array [v, Json.ofNat text.utf8ByteSize]), []⟩ ∧
    p.parse text = .parsed v text.utf8ByteSize

def Rejects (text : String) : Prop :=
  ∃ message place errors, place ≤ text.utf8ByteSize ∧
    run p.program p.entry [.string text] =
      .ok ⟨.error (Primitive.complaint message place), errors⟩ ∧
    p.parse text = .failed message place

def TooDeep (text : String) : Prop :=
  ∃ limit, run p.program p.entry [.string text] = .error (.depthExceeded limit) ∧
    p.parse text = .failed (RuntimeError.depthExceeded limit).message 0

theorem run_eq {r : Except Abort Json} {s : State}
    (h : ran (p.call.run [.string text]) ⟨[], []⟩ = (r, s)) :
    run p.program p.entry [.string text] = match r with
      | .ok v => .ok ⟨.ok v, s.errors⟩
      | .error (.thrown v) => .ok ⟨.error v, s.errors⟩
      | .error (.fault e) => .error e := by
  unfold run
  rw [show ExceptT.run (callFunction _ _ _ _ _) _ = _ from h]
  rcases r with (_ | _) | _ <;> rfl

/-- How a run ends if the call of the entry function does as the scan of a whole text. -/
theorem ends_of_replies {p : Parser} {o : Option (Json × List Char)}
    (h : Replies (onText text) p.call [.string text] ⟨[], []⟩ o
      fun y v => v = .array [y.1, Json.ofNat text.utf8ByteSize]) :
    match o with
    | some y => p.Finds text y.1
    | none => p.Rejects text ∨ p.TooDeep text := by
  cases o with
  | none =>
    obtain ⟨-, e, s, hran, ⟨v, rfl, message, n, hn, rfl⟩ | ⟨limit, rfl⟩⟩ := h
    · refine .inl ⟨message, n, s.errors, hn, run_eq p hran, ?_⟩
      simp [parse, run_eq p hran, Primitive.complaint, positionOf, Json.get?, Assoc.get?,
        List.lookup_cons,
        Json.string?, Json.unsigned?, Json.number?, Json.ofNat, Json.Number.unsigned?]
    · exact .inr ⟨limit, run_eq p hran, by simp [parse, run_eq p hran]⟩
  | some y =>
    obtain ⟨-, _, rfl, hran⟩ := h
    refine ⟨run_eq p hran, ?_⟩
    simp [parse, run_eq p hran, positionOf, Json.unsigned?, Json.number?, Json.ofNat,
      Json.Number.unsigned?]

theorem Complete.replies (h : Complete ⟨options, schema.definitions⟩ schema.root entry a)
    (hsmall : text.utf8ByteSize ≤ recordLimit) (maxDepth : Nat) :
    Replies (onText text) (nested (a.library.whole maxDepth) maxDepth entry) [.string text] ⟨[], []⟩
      (schema.scan options.whitespace maxDepth text.toList)
      fun y v => v = .array [y.1, Json.ofNat text.utf8ByteSize] := by
  obtain ⟨fd, hfd, hentry⟩ := h.entry
  cases maxDepth with
  | zero => exact ⟨fun _ _ h => h.elim, _, _, nested_zero hfd .., .inr ⟨_, rfl⟩⟩
  | succ calls =>
    rw [nested_succ hfd]
    exact hentry _ (h.serves hsmall (calls + 1) calls) ⟨[], []⟩ rfl

/-- A well-formed type definition has a parser, whose entry function does as the scan of a whole
text. -/
theorem exists_replies
    (hread : Schema.ofJson definition = .ok schema) (hschema : schema.WellFormed) :
    ∃ p, compile options definition = .ok p ∧ ∀ text : String, text.utf8ByteSize ≤ recordLimit →
      Replies (onText text) p.call [.string text] ⟨[], []⟩
        (schema.scan options.whitespace options.maxDepth text.toList)
        fun y v => v = .array [y.1, Json.ofNat text.utf8ByteSize] := by
  obtain ⟨compiled, a, code, hcompiled, hcomplete, hdepth, hcall, hlooks⟩ :=
    Compiled.exists_ofEmission options.maxDepth (emits_emitEntry options hschema)
      fun _ _ _ h => h.tidy
  refine ⟨⟨compiled⟩, ?_, fun text hsmall => ?_⟩
  · simp only [compile, hread, bind, Except.bind, hcompiled]
    rfl
  · obtain ⟨hadmits, hran⟩ := hcomplete.replies hsmall options.maxDepth
    refine ⟨fun x u hx => hadmits x u (hlooks _ _ _ _ _ _ (hdepth ▸ hx)), ?_⟩
    simpa only [call, nested, hdepth, hcall] using hran

/-- A well-formed type definition has a parser, and what the parser gives is what the scan of a whole
text reads. -/
theorem exists_compile
    (hread : Schema.ofJson definition = .ok schema) (hschema : schema.WellFormed) :
    ∃ p, compile options definition = .ok p ∧ ∀ text : String, text.utf8ByteSize ≤ recordLimit →
      ∀ v place, p.parse text = .parsed v place ↔ place = text.utf8ByteSize ∧
        ∃ rest, schema.scan options.whitespace options.maxDepth text.toList = some (v, rest) := by
  obtain ⟨p, hp, hreplies⟩ : ∃ p, compile options definition = .ok p ∧ _ :=
    exists_replies hread hschema
  refine ⟨p, hp, fun text hsmall v place => ?_⟩
  have hends := hreplies text hsmall
  generalize schema.scan options.whitespace options.maxDepth text.toList = o at hends
  cases o with
  | none =>
    rcases ends_of_replies hends with ⟨_, _, _, -, -, hfailed⟩ | ⟨_, -, hfailed⟩ <;> simp [hfailed]
  | some y =>
    obtain ⟨-, hparsed⟩ : p.Finds text y.1 := ends_of_replies hends
    rw [hparsed]
    constructor
    · rintro ⟨⟩
      exact ⟨rfl, y.2, rfl⟩
    · rintro ⟨rfl, rest, ⟨⟩⟩
      rfl

end SchemaCompiler.TypeDefinition.Parser
