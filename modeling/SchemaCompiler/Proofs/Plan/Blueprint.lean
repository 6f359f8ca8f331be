import SchemaCompiler.Proofs.Assoc
import SchemaCompiler.Proofs.Plan.Simulation

/-!
# Validating functions

A blueprint is what a program of validating functions is made from: what each function is to do, and
the values that functions refer to. It gives one program for each way to treat errors. The errors
that a function finds are given by recursion on how deep calls may go, and every function of the
program answers a call with them.
-/
namespace SchemaCompiler

open Machine Assoc

/-- What programs of validating functions are made from. -/
structure Blueprint where
  checkers : List (Name × Checker)
  values : List (Name × LiveValue)
  maxDepth : Nat

def Checker.parameters : List Name := [dataName, instancePathName, rootDataName]

def Context.root (before : Name) : Context where
  reads := fun n => n ∈ Checker.parameters ∨ n.Reserved
  sets := fun _ => False
  marks := fun n => n = before
  node := some before
  known := fun _ => False
  solid := fun _ => False
  below := fun _ => False

/-- A function whose plan fits. -/
structure Checker.Fits (callable : Name → Bool → Prop) (c : Checker) : Prop where
  plan : c.plan.Fits callable (.root c.before)
  stays : c.plan.escapes = false
  fresh : ¬ (Context.root c.before).reads c.before
  composes : c.plan.composes = false

namespace Blueprint

variable (b : Blueprint)

def checker? (name : Name) : Option Checker := get? name b.checkers

def value? (name : Name) : Option LiveValue := get? name b.values

variable (allErrors : Bool)

def program : Program where
  functions := b.checkers.map fun e => (e.1, e.2.code allErrors e.1)
  values := b.values
  maxDepth := b.maxDepth

theorem function?_program (name : Name) :
    (b.program allErrors).function? name = (b.checker? name).map fun c => c.code allErrors name :=
  get?_map (fun name (c : Checker) => c.code allErrors name) name b.checkers

/-- A name that stands for functions which are called in a way, if for anything. -/
structure Callable (name : Name) (isAsync : Bool) : Prop where
  not_function : b.checker? name = none
  leads : b.value? name = none ∨ ∃ target, b.value? name = some (.function target) ∧
    ∀ c, b.checker? target = some c → c.isAsync = isAsync

def calls (find : Name → List Json → Except Abort (List Json)) (name : Name) (args : List Json) :
    Except Abort (List Json) :=
  match b.value? name with
  | some (.function target) => find target args
  | _ => .error (.fault (.malformed (.unboundName name)))

def start (args : List Json) : Locals := ofList (bindParams Checker.parameters args)

def findings (allErrors : Bool) : Nat → Name → List Json → Except Abort (List Json)
  | 0, name, _ =>
    match b.checker? name with
    | none => .error (.fault (.malformed (.noFunction name)))
    | some _ => .error (.fault (.depthExceeded b.maxDepth))
  | left + 1, name, args =>
    match b.checker? name with
    | none => .error (.fault (.malformed (.noFunction name)))
    | some c =>
      (c.plan.meaning ⟨b.values, b.calls (findings allErrors left)⟩ (c.mode allErrors)
        (start args)).map Finding.errors

def setting (left : Nat) : Setting :=
  ⟨b.values, b.calls (b.findings allErrors left)⟩

/-- What makes a blueprint give programs that do as they should. -/
structure Sound : Prop where
  inert : Inert b.values
  routine : ∀ n, n.Routine → b.checker? n = none
  fits : ∀ n c, b.checker? n = some c → c.Fits b.Callable

end Blueprint

/-! ## The body of a function -/

theorem Blueprint.get?_dataName_start (args : List Json) :
    get? dataName (start args) = some (args.headD .null) := by
  have h₁ : dataName ≠ instancePathName := by decide
  have h₂ : dataName ≠ rootDataName := by decide
  have hget : ∀ a b c : Json, get? dataName (ofList
      [(dataName, a), (instancePathName, b), (rootDataName, c)]) = some a := by
    intro a b c
    simp only [ofList, List.foldl_cons, List.foldl_nil]
    rw [get?_insert_of_ne h₂, get?_insert_of_ne h₁, get?_insert_self]
  rcases args with _ | ⟨a, _ | ⟨b, _ | ⟨c, rest⟩⟩⟩ <;> exact hget _ _ _

def Machine.returned : Except Abort Flow → Except Abort Json
  | .ok (.return v) => .ok v
  | .ok _ => .ok .null
  | .error a => .error a

theorem Machine.ran_invoke (env : Env) (f : FunctionDef) (args : List Json) (s : State) :
    ran (invoke env f args) s =
      let r := ran (execBlock env f.body) ⟨s.errors, ofList (bindParams f.params args)⟩
      (returned r.1, ⟨r.2.errors, s.locals⟩) := by
  simp only [invoke, ran_bind, ran_look, ran_update, follow_ok, ran_observe]
  rcases ran (execBlock env f.body) ⟨s.errors, ofList _⟩ with
    ⟨_ | flow, t⟩
  · rfl
  · cases flow <;> rfl

section Body

variable {w : Setting} {env : Env} {callable : Name → Bool → Prop} {c : Checker} {all : Bool}

theorem Checker.ran_ending {E errors : List Json} {l : Locals} {v : Json}
    (room : (E ++ errors).length ≤ recordLimit)
    (hcount : get? c.before l = some (Json.ofNat E.length)) (hdata : get? dataName l = some v) :
    ran (execBlock env (c.ending (c.mode all))) ⟨E ++ errors, l⟩ =
      (if c.isAsync then
        if errors.isEmpty then .ok (.return v) else .error (.thrown Mode.verdictValue)
      else .ok (.return (.bool errors.isEmpty)), ⟨E ++ errors, l⟩) := by
  have hE : E.length ≤ recordLimit := Nat.le_trans (by simp) room
  have hempty : decide ((E ++ errors).length = E.length) = errors.isEmpty := by
    cases errors <;> simp
  have hsame : ran (Machine.eval env (.unmoved c.before)) ⟨E ++ errors, l⟩ =
      (.ok (.bool errors.isEmpty), ⟨E ++ errors, l⟩) := by
    rw [← hempty]
    exact ran_unmoved env hE hcount room
  have hmoved : ran (Machine.eval env (.differs .errorCount (.var c.before))) ⟨E ++ errors, l⟩ =
      (.ok (.bool !errors.isEmpty), ⟨E ++ errors, l⟩) := by
    rw [← hempty]
    exact ran_moved env hE hcount room
  cases ha : c.isAsync with
  | false =>
    simp [ending, ha, exec, hsame]
  | true =>
    simp only [ending, ha, if_true]
    rw [ran_execBlock_cons, ran_branch, hmoved, follow_ok, Mode.ran_leaving]
    cases errors.isEmpty with
    | true => simp [truthy, exec, Machine.eval, ran_readName, hdata]
    | false => simp [truthy, Mode.left, mode, ha]

theorem Checker.answers (he : env.Holds w.values) (hcall : w.Answered env callable)
    (hc : c.Fits callable) (name : Name) (args : List Json) {s : State}
    (hs : s.errors.length ≤ recordLimit) :
    Answers c.isAsync s
      ((c.plan.meaning w (c.mode all) (Blueprint.start args)).map Finding.errors)
      (ran (invoke env (c.code all name) args) s) := by
  have ha : Agree (Context.root c.before).reads (insert c.before
      (Json.ofNat s.errors.length) (Blueprint.start args)) _ :=
    (Agree.refl _ _).insert_left hc.fresh _
  have hcount := get?_insert_self c.before (Json.ofNat s.errors.length)
    (Blueprint.start args)
  have hplan := c.plan.carries he hcall hc.plan ha hs (m := c.mode all) fun _ b hb => by
    obtain rfl : c.before = b := Option.some.inj hb
    exact ⟨rfl, hcount⟩
  have hbody : ran (execBlock env (c.code all name).body)
      ⟨s.errors, ofList (bindParams (c.code all name).params args)⟩ =
        follow (onNormal (ran (execBlock env (c.ending (c.mode all)))))
          (ran (execBlock env (c.plan.code (c.mode all))) ⟨s.errors, insert c.before
            (Json.ofNat s.errors.length) (Blueprint.start args)⟩) := by
    rw [Checker.code, ran_execBlock_cons, ran_mark, follow_ok, onNormal_normal,
      ran_execBlock_append]
    rfl
  rw [ran_invoke]
  simp only [hbody]
  have hmode : (c.mode all).left = if c.isAsync then .error _
      else .ok _ := rfl
  generalize hmeaning : c.plan.meaning w (c.mode all) _ = r at hplan
  generalize ran _ _ = out at hplan
  cases hplan with
  | full r stay => exact .full _ stay
  | stops plain stay => exact .stops plain stay
  | @onward errors ρ l' room agree kept =>
    have hcount' : get? c.before l' = some (Json.ofNat s.errors.length) := by
      rw [kept c.before rfl]
      exact hcount
    have hdata : get? dataName l' = some (args.headD .null) := by
      have hread : (Context.root c.before).reads dataName := .inl (by simp [parameters])
      rw [agree dataName (.inl hread), Plan.agree_meaning_of_frozen he.inert hc.plan
        hmeaning (fun _ => id) dataName hread, Blueprint.get?_dataName_start]
    rw [follow_ok, onNormal_normal, ran_ending room hcount' hdata]
    cases hasync : c.isAsync with
    | false => exact .verdict rfl room
    | true =>
      cases errors with
      | nil =>
        have h : Answers true s (.ok []) (.ok (args.headD .null), s) := .returned rfl _
        simpa [Except.map, returned] using h
      | cons e es => exact .thrown rfl (by simp) room
  | loop room agree kept =>
    exact nomatch hc.stays.symm.trans ((Plan.ends_meaning he.inert hc.plan hmeaning).loop rfl)
  | @function errors ρ l' room =>
    have hne : errors ≠ [] := (Plan.ends_meaning he.inert hc.plan hmeaning).errors rfl
    rw [hmode]
    cases hasync : c.isAsync with
    | false =>
      have h : Answers false s (.ok errors) _ := .verdict rfl room
      have hempty : errors.isEmpty = false := by simpa using hne
      rw [hempty] at h
      exact h
    | true => exact .thrown rfl hne room

end Body

/-! ## Programs -/

namespace Blueprint

variable {b : Blueprint}

theorem Sound.holds (h : b.Sound) (allErrors : Bool) (call : Name → List Json → Exec Json)
    (rounds : Nat) : Env.Holds ⟨b.program allErrors, call, rounds⟩ b.values where
  values_eq := rfl
  inert := h.inert
  routine := fun n hn => by
    rw [function?_program, h.routine n hn]
    rfl

theorem answers_fault (isAsync : Bool) (e : RuntimeError) (s : State) :
    Answers isAsync s (.error (.fault e)) (ran (raise e) s) :=
  .stops (a := .fault e) trivial (List.prefix_refl _)

theorem answers_none (allErrors : Bool) (rounds left : Nat) {name : Name}
    (hc : b.checker? name = none) (isAsync : Bool) (args : List Json) (s : State) :
    Answers isAsync s (b.findings allErrors left name args)
      (ran (callFunction (b.program allErrors) rounds left name args) s) := by
  cases left <;>
  · simp only [findings, hc, callFunction, function?_program]
    exact answers_fault _ _ _

/-- Where functions answer with the errors that they find, so do the names that stand for them. -/
theorem answered {allErrors : Bool} {rounds left : Nat}
    (h : ∀ name c, b.checker? name = some c → ∀ args (s : State), s.errors.length ≤ recordLimit →
      Answers c.isAsync s (b.findings allErrors left name args)
        (ran (callFunction (b.program allErrors) rounds left name args) s)) :
    (b.setting allErrors left).Answered ⟨b.program allErrors,
      callFunction (b.program allErrors) rounds left, rounds⟩ b.Callable := by
  intro callee isAsync hcallee args s hs
  have hnone : ((b.program allErrors).function? callee).isSome = false := by
    rw [function?_program, hcallee.not_function]
    rfl
  have hvalue : (b.program allErrors).value? callee = b.value? callee := rfl
  simp only [callName, hnone, hvalue, setting, calls]
  rcases hcallee.leads with hv | ⟨target, hv, hflag⟩
  · simp only [hv]
    exact answers_fault _ _ _
  · simp only [hv]
    cases ht : b.checker? target with
    | none => exact answers_none allErrors rounds left ht isAsync args s
    | some t =>
      rw [← hflag t ht]
      exact h target t ht args s hs

/-- A function of the program of a sound blueprint answers with the errors that it finds. -/
theorem Sound.answers (h : b.Sound) (allErrors : Bool) (rounds left : Nat) {name : Name}
    {c : Checker} (hc : b.checker? name = some c) (args : List Json) {s : State}
    (hs : s.errors.length ≤ recordLimit) :
    Answers c.isAsync s (b.findings allErrors left name args)
      (ran (callFunction (b.program allErrors) rounds left name args) s) := by
  induction left generalizing name c args s with
  | zero =>
    simp only [findings, hc, callFunction, function?_program]
    exact answers_fault _ _ _
  | succ left ih =>
    simp only [findings, hc, callFunction, function?_program]
    exact Checker.answers (h.holds allErrors _ rounds)
      (answered fun name c hc args s hs => ih hc args hs) (h.fits name c hc) name args hs

end Blueprint
end SchemaCompiler
