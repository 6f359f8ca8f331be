import SchemaCompiler.Machine.Basic
import SchemaCompiler.Proofs.Program.Uses

/-!
# Relations along evaluation

Much that is said of evaluation is said of each of its steps: that it leaves the state as it is, or
that it comes to the same in two programs. Such a relation between computations holds of the
evaluation of an expression if it holds wherever a name is read or called, and then of statements too.
-/
namespace SchemaCompiler.Machine

variable {σ τ : Type}

/-- How an evaluation can stop early by itself, without what is called. -/
inductive Abort.Mild : Abort → Prop
  | routine {r : Primitive} {args : List Json} {v : Json} (h : r.call args = .error v) :
      Mild (.thrown v)
  | type (f : TypeFault) : Mild (.fault (.type f))
  | malformed (m : Malformation) : Mild (.fault (.malformed m))

/-- A relation between computations that passes on to what is put together from them. -/
structure Related (T : (α : Type) → ExecOn σ α → ExecOn τ α → Prop) : Prop where
  pure {α : Type} (a : α) : T α (Pure.pure a) (Pure.pure a)
  stop {α : Type} {e : Abort} (h : e.Mild) : T α (throw e) (throw e)
  bind {α β : Type} {x : ExecOn σ α} {y : ExecOn τ α} {f : α → ExecOn σ β} {g : α → ExecOn τ β} :
    T α x y → (∀ a, T β (f a) (g a)) → T β (x >>= f) (y >>= g)

variable [Carries σ] [Carries τ] {T : (α : Type) → ExecOn σ α → ExecOn τ α → Prop} {env : EnvOn σ}
  {env' : EnvOn τ} {Q : Expr → Prop}

/-- Expressions of a kind, with their parts, read and call names in a related way. -/
structure Evaluates (T : (α : Type) → ExecOn σ α → ExecOn τ α → Prop) (env : EnvOn σ)
    (env' : EnvOn τ) (Q : Expr → Prop) : Prop where
  parts {e p : Expr} : Q e → p ∈ e.parts → Q p
  read {n : Name} : Q (.var n) → T Json (readName env n) (readName env' n)
  call {n : Name} {args : List Expr} (vs : List Json) : Q (.call (.var n) args) →
    T Json (callName env n vs) (callName env' n vs)
  count : Q .errorCount → T Json (eval env .errorCount) (eval env' .errorCount)

namespace Related

variable (hT : Related T)

include hT

omit [Carries σ] [Carries τ] in
theorem checked {α : Type} (r : Except TypeFault α) :
    T α (Machine.checked r) (Machine.checked r) := by
  cases r with
  | error f => exact hT.stop (.type f)
  | ok a => exact hT.pure a

section Lists

variable {items : List Expr} (h : ∀ e ∈ items, T Json (eval env e) (eval env' e))

include h

theorem evalItems : T (List Json) (Machine.evalItems env items) (Machine.evalItems env' items) := by
  induction items with
  | nil => exact hT.pure _
  | cons e rest ih =>
    exact hT.bind (h e (by simp)) fun _ => hT.bind (ih fun p hp => h p (by simp [hp])) fun _ =>
      hT.pure _

theorem evalJoint (k : Bool) :
    T Bool (Machine.evalJoint env k items) (Machine.evalJoint env' k items) := by
  induction items with
  | nil => exact hT.pure _
  | cons e rest ih =>
    refine hT.bind (h e (by simp)) fun v => ?_
    split
    · exact ih fun p hp => h p (by simp [hp])
    · exact hT.pure _

end Lists

theorem evalMembers {members : List (String × Expr)}
    (h : ∀ e ∈ members.map Prod.snd, T Json (eval env e) (eval env' e)) :
    T _ (Machine.evalMembers env members) (Machine.evalMembers env' members) := by
  induction members with
  | nil => exact hT.pure _
  | cons m rest ih =>
    exact hT.bind (h m.2 (by simp)) fun _ =>
      hT.bind (ih fun p hp => h p (List.mem_cons_of_mem _ hp)) fun _ => hT.pure _

theorem eval (hQ : Evaluates T env env' Q) {e : Expr} (he : Q e) :
    T Json (Machine.eval env e) (Machine.eval env' e) := by
  induction e using Expr.induction_parts with | h e ih => ?_
  have hpart : ∀ p ∈ e.parts, T Json _ _ :=
    fun p hp => ih p hp (hQ.parts he hp)
  cases e with
  | lit v => exact hT.pure v
  | var n => exact hQ.read he
  | errorCount => exact hQ.count he
  | index a b | has a b =>
    exact hT.bind (hpart b (by simp [Expr.parts])) fun _ =>
      hT.bind (hpart a (by simp [Expr.parts])) fun _ => hT.pure _
  | binary op a b =>
    exact hT.bind (hpart a (by simp [Expr.parts])) fun _ =>
      hT.bind (hpart b (by simp [Expr.parts])) fun _ => hT.checked _
  | not a | typeIs a _ => exact hT.bind (hpart a (by simp [Expr.parts])) fun _ => hT.pure _
  | len a =>
    refine hT.bind (hpart a (by simp [Expr.parts])) fun v => ?_
    split
    · exact hT.pure _
    · exact hT.stop (.type _)
  | await a => exact hpart a (by simp [Expr.parts])
  | and items | or items => exact hT.bind (hT.evalJoint hpart _) fun _ => hT.pure _
  | array items => exact hT.bind (hT.evalItems hpart) fun _ => hT.pure _
  | object members => exact hT.bind (hT.evalMembers hpart) fun _ => hT.pure _
  | slice text start count =>
    exact hT.bind (hpart start (by simp [Expr.parts])) fun _ => hT.bind (hT.checked _) fun _ =>
      hT.bind (hpart text (by simp [Expr.parts])) fun _ => hT.pure _
  | call callee args =>
    refine hT.bind (hT.evalItems fun p hp => hpart p (by simp [Expr.parts, hp])) fun vs => ?_
    split
    · exact hQ.call vs he
    · exact hT.stop (.type _)

omit [Carries σ] [Carries τ] in
theorem callName {n : Name} {args : List Json}
    (hf : (env.program.function? n).isSome = (env'.program.function? n).isSome)
    (hv : env.program.value? n = env'.program.value? n)
    (hcall : ∀ m, (env.program.function? n).isSome = true ∧ m = n ∨
      env.program.value? n = some (.function m) → T Json (env.call m args) (env'.call m args)) :
    T Json (Machine.callName env n args) (Machine.callName env' n args) := by
  unfold Machine.callName
  rw [← hf, ← hv]
  split
  · exact hcall n (.inl ⟨‹_›, rfl⟩)
  · cases hlive : env.program.value? n with
    | none => exact hT.stop (.malformed _)
    | some live =>
      cases live with
      | function m => exact hcall m (.inr hlive)
      | primitive routine =>
        dsimp only
        split
        · exact hT.pure _
        · exact hT.stop (.routine ‹_›)
      | pattern source compiled =>
        dsimp only
        split
        · exact hT.pure _
        · exact hT.stop (.type _)
      | format test | keyword test => exact hT.pure _
      | json v => exact hT.stop (.type _)
      | forward v => exact hT.stop (.malformed _)

end Related

/-! ## Statements -/

theorem loopRange_eq (var : Name) (body : ExecOn σ Flow) (count i : Nat) :
    loopRange var body count i = loopOver var body ((List.range' i count).map Json.ofNat) := by
  induction count generalizing i with
  | zero => rfl
  | succ count ih => simp [loopRange, List.range'_succ, loopOver, ih]

def Abort.IsDeep : Abort → Prop
  | .fault (.depthExceeded _) => True
  | _ => False

def IsDeep {α : Type} : Except Abort α → Prop
  | .error e => e.IsDeep
  | .ok _ => False

/-- A relation that passes on to what statements are put together from. It is told whether calls have
nested too deep before. -/
structure Executes (T : Prop → (α : Type) → ExecOn σ α → ExecOn τ α → Prop) : Prop where
  related (b : Prop) : Related (T b)
  stop {b : Prop} {α : Type} {e : Abort} : (e.IsDeep → b) → T b α (throw e) (throw e)
  look (b : Prop) : T b State look look
  update (b : Prop) (f : State → State) : T b Unit (update f) (update f)
  observe {b : Prop} {α β : Type} {x : ExecOn σ α} {y : ExecOn τ α}
    {f : Except Abort α → ExecOn σ β} {g : Except Abort α → ExecOn τ β} :
    T b α x y → (∀ r, T (b ∨ IsDeep r) β (f r) (g r)) → T b β (observe x >>= f) (observe y >>= g)

namespace Executes

variable {T : Prop → (α : Type) → ExecOn σ α → ExecOn τ α → Prop} {b : Prop} {names : List Name}

variable (hT : Executes T)

include hT

theorem pure {α : Type} (a : α) : T b α (Pure.pure a) (Pure.pure a) := (hT.related b).pure a

theorem bind {α β : Type} {x : ExecOn σ α} {y : ExecOn τ α} {f : α → ExecOn σ β}
    {g : α → ExecOn τ β} (h : T b α x y) (hf : ∀ a, T b β (f a) (g a)) :
    T b β (x >>= f) (y >>= g) := (hT.related b).bind h hf

theorem setLocal (name : Name) (v : Json) : T b Unit (setLocal name v) (setLocal name v) :=
  hT.update b _

theorem getLocal (name : Name) : T b Json (getLocal name) (getLocal name) := by
  refine hT.bind (hT.look b) fun s => ?_
  split
  · exact hT.pure _
  · exact hT.stop nofun

theorem withIndex (target key v : Json) : T b Json (withIndex target key v) (withIndex target key v) := by
  unfold Machine.withIndex
  split
  · exact hT.pure _
  · split
    · split
      · exact hT.pure _
      · exact hT.stop nofun
    · exact hT.stop nofun
  · exact hT.stop nofun

theorem resume {α : Type} : ∀ r : Except Abort α, T (b ∨ IsDeep r) α (resume r) (resume r)
  | .ok a => hT.pure a
  | .error _ => hT.stop .inr

theorem readName (hp : env.program = env'.program) (name : Name) :
    T b Json (readName env name) (readName env' name) := by
  refine hT.bind (hT.look b) fun s => ?_
  rw [hp]
  split
  · exact hT.pure _
  · split
    · exact hT.pure _
    · exact hT.stop nofun
    · exact hT.stop nofun

theorem callName (hp : env.program = env'.program)
    (hcall : ∀ name args, T b Json (env.call name args) (env'.call name args)) (name : Name)
    (args : List Json) : T b Json (callName env name args) (callName env' name args) :=
  (hT.related b).callName (by rw [hp]) (by rw [hp]) fun m _ => hcall m args

theorem addRecord (v : Json) : T b Unit (addRecord v) (addRecord v) := by
  refine hT.bind (hT.look b) fun s => ?_
  split
  · exact hT.update b _
  · exact hT.stop nofun

section Bodies

variable {body closing : ExecOn σ Flow} {body' closing' : ExecOn τ Flow}

theorem afterRound (h : T b Flow body body') :
    ∀ flow, T b Flow (afterRound body flow) (afterRound body' flow)
  | .normal => h
  | .leave | .return _ => hT.pure _

theorem concluded (h : ∀ b, T b Flow closing closing') (r : Except Abort Flow) :
    T (b ∨ IsDeep r) Flow (concluded closing r) (concluded closing' r) := by
  unfold Machine.concluded
  split
  · exact hT.stop nofun
  · refine hT.bind (h _) fun flow => ?_
    cases flow with
    | normal => exact hT.resume r
    | _ => exact hT.pure _

variable (h : T b Flow body body')

include h

theorem loopOver (var : Name) (vs : List Json) :
    T b Flow (loopOver var body vs) (loopOver var body' vs) := by
  induction vs with
  | nil => exact hT.pure _
  | cons v vs ih => exact hT.bind (hT.setLocal var v) fun _ => hT.bind h (hT.afterRound ih)

theorem loopOn : ∀ rounds, T b Flow (loopOn body rounds) (loopOn body' rounds)
  | 0 => hT.stop nofun
  | rounds + 1 => hT.bind h (hT.afterRound (loopOn rounds))

end Bodies

theorem execBlock {body : List Stmt} (h : ∀ st ∈ body, ∀ b, T b Flow (exec env st) (exec env' st)) :
    T b Flow (execBlock env body) (execBlock env' body) := by
  induction body with
  | nil => exact hT.pure _
  | cons st rest ih =>
    refine hT.bind (h st (by simp) b) fun flow => ?_
    cases flow with
    | normal => exact ih fun st hst => h st (by simp [hst])
    | _ => exact hT.pure _

theorem exec (hrounds : env.rounds = env'.rounds)
    (he : ∀ b e, e.names ⊆ names → T b Json (eval env e) (eval env' e)) (st : Stmt)
    (hn : st.names ⊆ names) (b : Prop) : T b Flow (exec env st) (exec env' st) := by
  have hexpr : ∀ e ∈ st.exprs, T b Json (eval env e) (eval env' e) := fun e hmem =>
    he b e fun m hm => hn (Stmt.mem_names_iff_parts.2 (.inr (.inl ⟨e, hmem, hm⟩)))
  have hblock : ∀ body ∈ st.blocks, ∀ b, T b Flow _ _ :=
    fun body hbody b => hT.execBlock fun t ht b =>
      have := Stmt.sizeOf_lt_of_mem_blocks hbody ht
      exec hrounds he t (fun m hm => hn (Stmt.mem_names_iff_parts.2 (.inr (.inr
        ⟨body, hbody, Stmt.mem_namesOfBlock.2 ⟨t, ht, hm⟩⟩)))) b
  cases st with
  | declare n value constant =>
    cases value with
    | none => exact hT.bind (hT.setLocal n _) fun _ => hT.pure _
    | some e =>
      exact hT.bind (hexpr e (.head _)) fun v => hT.bind (hT.setLocal n v) fun _ => hT.pure _
  | assign n e =>
    exact hT.bind (hexpr e (.head _)) fun v => hT.bind (hT.setLocal n v) fun _ => hT.pure _
  | setIndex n key e =>
    exact hT.bind (hexpr key (.head _)) fun k => hT.bind (hexpr e (.tail _ (.head _))) fun v =>
      hT.bind (hT.getLocal n) fun t => hT.bind (hT.withIndex t k v) fun t =>
        hT.bind (hT.setLocal n t) fun _ => hT.pure _
  | push n e =>
    refine hT.bind (hexpr e (.head _)) fun v => hT.bind (hT.getLocal n) fun t => ?_
    split
    · exact hT.bind (hT.setLocal n _) fun _ => hT.pure _
    · exact hT.stop nofun
  | expr e | «return» e => exact hT.bind (hexpr e (.head _)) fun _ => hT.pure _
  | throw e => exact hT.bind (hexpr e (.head _)) fun _ => hT.stop nofun
  | branch c yes no =>
    refine hT.bind (hexpr c (.head _)) fun v => ?_
    split
    · exact hblock yes (.head _) b
    · exact hblock no (.tail _ (.head _)) b
  | forRange var start stop body =>
    refine hT.bind (hexpr start (.head _)) fun i => hT.bind ((hT.related b).checked _) fun i =>
      hT.bind (hexpr stop (.tail _ (.head _))) fun j => hT.bind ((hT.related b).checked _) fun j => ?_
    rw [loopRange_eq, loopRange_eq]
    exact hT.loopOver (hblock body (.head _) b) var _
  | forKeys var e body | forEach var e body =>
    exact hT.bind (hexpr e (.head _)) fun v => hT.loopOver (hblock body (.head _) b) var _
  | loop body =>
    rw [Machine.exec, hrounds]
    exact hT.loopOn (hblock body (.head _) b) _
  | leave => exact hT.pure _
  | handled body caught handler closing =>
    refine hT.observe (hblock body (.head _) b) fun r => ?_
    have hclosing := hblock closing (.tail _ (.tail _ (.head _)))
    match r with
    | .error (.thrown v) =>
      simp only [handling, bind_assoc]
      exact hT.bind (hT.setLocal caught v) fun _ =>
        hT.observe (hblock handler (.tail _ (.head _)) _) fun r => hT.concluded hclosing r
    | .error (.fault e) => exact hT.concluded hclosing _
    | .ok flow => exact hT.concluded hclosing (.ok flow)
  | guarded body closing =>
    exact hT.observe (hblock body (.head _) b) fun r =>
      hT.concluded (hblock closing (.tail _ (.head _))) r
  | addError e =>
    exact hT.bind (hexpr e (.head _)) fun v => hT.bind (hT.addRecord v) fun _ => hT.pure _
  | resetErrors e =>
    exact hT.bind (hexpr e (.head _)) fun v => hT.bind ((hT.related b).checked _) fun n =>
      hT.bind (hT.update b _) fun _ => hT.pure _
termination_by sizeOf st

theorem invoke (f : FunctionDef) (args : List Json)
    (h : T b Flow (Machine.execBlock env f.body) (Machine.execBlock env' f.body)) :
    T b Json (invoke env f args) (invoke env' f args) := by
  refine hT.bind (hT.look b) fun s => hT.bind (hT.update b _) fun _ => hT.observe h fun r =>
    hT.bind (hT.update _ _) fun _ => hT.bind (hT.resume r) fun flow => ?_
  cases flow <;> exact hT.pure _

end Executes
end SchemaCompiler.Machine
