import Mathlib.Logic.Relation
import SchemaCompiler.Proofs.Machine.Mentions
import SchemaCompiler.Proofs.Program.Uses
import SchemaCompiler.Proofs.Run

/-!
# Where a run looks

The machine gives what a run ends with. What happens on the way is told by relations beside it: the
evaluation of an expression, and a run of code, look at expressions in states. These are parts of the
expression or code, of blocks that statements begin, and of functions that are called.

The relations hold of more than happens: of conjunctions and disjunctions all conditions count, a loop
may go on for ever, and blocks other than those of branches and endless loops count in all states. So
what is shown of all that is looked at holds of the run.
-/
namespace SchemaCompiler

def Expr.operands : Expr → List Expr
  | index base key => [key, base]
  | has base key => [key, base]
  | slice text start _ => [start, text]
  | call _ args => args
  | e => e.parts

theorem Expr.operands_subset_parts (e : Expr) : e.operands ⊆ e.parts := by
  cases e <;> simp_all [operands, parts]

/-- The place at which an expression itself reads a text: where a piece of a text starts, and the
second argument of a call. -/
def Expr.place? : Expr → Option Expr
  | slice _ start _ => some start
  | call _ args => args[1]?
  | _ => none

def Program.callee? (p : Program) (n : Name) : Option FunctionDef :=
  match p.function? n, p.value? n with
  | some f, _ => some f
  | none, some (.function target) => p.function? target
  | none, _ => none

namespace Machine

variable {env env' : Env} {s t u : State} {e x : Expr} {st : Stmt} {code first second : List Stmt}
  {names : List Name}

abbrev Inside := Name → List Json → State → Expr → State → Prop

/-- The evaluation of an expression from a state looks at an expression in a state; `inside` says
where calls look. -/
inductive Looks (env : Env) (inside : Inside) : Expr → State → Expr → State → Prop
  | here (e : Expr) (s : State) : Looks env inside e s e s
  | operand {e p x : Expr} {before after : List Expr} {s t u : State} {earlier : List Json}
      (hsplit : e.operands = before ++ p :: after)
      (hbefore : ran (evalItems env before) s = (.ok earlier, t)) (h : Looks env inside p t x u) :
      Looks env inside e s x u
  | call {n : Name} {args : List Expr} {x : Expr} {s t u : State} {values : List Json}
      (hargs : ran (evalItems env args) s = (.ok values, t)) (h : inside n values t x u) :
      Looks env inside (.call (.var n) args) s x u

/-- A statement that runs from a state begins a block in a state. -/
inductive Enters (env : Env) : Stmt → State → List Stmt → State → Prop
  | branch {c : Expr} {yes no : List Stmt} {s t : State} {v : Json}
      (hc : ran (eval env c) s = (.ok v, t)) :
      Enters env (.branch c yes no) s (if truthy v then yes else no) t
  | loop {body : List Stmt} {s t : State}
      (h : Relation.ReflTransGen (fun s t => ran (execBlock env body) s = (.ok .normal, t)) s t) :
      Enters env (.loop body) s body t
  | other {st : Stmt} {body : List Stmt} (hbody : body ∈ st.blocks)
      (hbranch : ∀ c yes no, st ≠ .branch c yes no) (hloop : ∀ body, st ≠ .loop body) (s t : State) :
      Enters env st s body t

/-- A run of code from a state looks at an expression in a state. -/
inductive Reaches (env : Env) (inside : Inside) : List Stmt → State → Expr → State → Prop
  | look {st : Stmt} {rest : List Stmt} {e x : Expr} {before after : List Expr} {s t u : State}
      {earlier : List Json} (hsplit : st.exprs = before ++ e :: after)
      (hbefore : ran (evalItems env before) s = (.ok earlier, t)) (h : Looks env inside e t x u) :
      Reaches env inside (st :: rest) s x u
  | block {st : Stmt} {rest body : List Stmt} {x : Expr} {s t u : State} (hst : Enters env st s body t)
      (h : Reaches env inside body t x u) : Reaches env inside (st :: rest) s x u
  | next {st : Stmt} {rest : List Stmt} {x : Expr} {s t u : State}
      (hst : ran (exec env st) s = (.ok .normal, t)) (h : Reaches env inside rest t x u) :
      Reaches env inside (st :: rest) s x u

def callLooks (p : Program) (rounds : Nat) : Nat → Inside
  | 0 => fun _ _ _ _ _ => False
  | left + 1 => fun n args s x u => ∃ f, p.callee? n = some f ∧
      Reaches ⟨p, callFunction p rounds left, rounds⟩ (callLooks p rounds left) f.body
        { s with locals := Assoc.ofList (bindParams f.params args) } x u

/-! ## Code after code -/

variable {inside inside' : Inside}

theorem Enters.mem_blocks {body : List Stmt} (h : Enters env st s body t) : body ∈ st.blocks := by
  cases h with
  | branch => split <;> simp [Stmt.blocks]
  | loop => simp [Stmt.blocks]
  | other hbody => exact hbody

theorem reaches_append : Reaches env inside (first ++ second) s x u ↔ Reaches env inside first s x u ∨
    ∃ t, ran (execBlock env first) s = (.ok .normal, t) ∧ Reaches env inside second t x u := by
  induction first generalizing s with
  | nil =>
    constructor
    · exact fun h => .inr ⟨s, rfl, h⟩
    · rintro (h | ⟨t, ⟨⟩, h⟩)
      · cases h
      · exact h
  | cons st rest ih =>
    constructor
    · intro h
      cases h with
      | look hsplit hbefore h => exact .inl (.look hsplit hbefore h)
      | block hst h => exact .inl (.block hst h)
      | next hst h =>
        rcases ih.1 h with h | ⟨t, hrest, h⟩
        · exact .inl (.next hst h)
        · exact .inr ⟨t, by simp [execBlock, ran_bind, hst, hrest], h⟩
    · rintro (h | ⟨t, hrun, h⟩)
      · cases h with
        | look hsplit hbefore h => exact .look hsplit hbefore h
        | block hst h => exact .block hst h
        | next hst h => exact .next hst (ih.2 (.inl h))
      · simp only [execBlock, ran_bind] at hrun
        rcases hst : ran (exec env st) s with ⟨_ | _ | _ | _, s'⟩ <;> rw [hst] at hrun <;> try cases hrun
        exact .next hst (ih.2 (.inr ⟨t, hrun, h⟩))

/-! ## Programs that share names -/

theorem Looks.congr (h : env.Shares names env')
    (hinside : ∀ n ∈ names, ∀ values s x u, inside n values s x u → inside' n values s x u)
    (hlooks : Looks env inside e s x u) (hn : e.names ⊆ names) : Looks env' inside' e s x u := by
  induction hlooks with
  | here => exact .here _ _
  | @operand e p _ before _ _ _ _ _ hsplit hbefore _ ih =>
    have hp : ∀ q ∈ before ++ p :: _, q.names ⊆ names := fun q hq m hm =>
      hn (Expr.mem_names_iff_parts.2 (.inr ⟨q, e.operands_subset_parts (hsplit ▸ hq), hm⟩))
    have hbefore' := evalItems_congr h before fun q hq => hp q (List.mem_append_left _ hq)
    exact .operand hsplit (hbefore' ▸ hbefore) (ih (hp p (by simp)))
  | @call n args _ _ _ _ _ hargs hcall =>
    have hargs' := evalItems_congr h args fun q hq m hm =>
      hn (List.mem_cons_of_mem _ (Expr.mem_namesOfItems.2 ⟨q, hq, hm⟩))
    exact .call (hargs' ▸ hargs) (hinside n (hn (by simp [Expr.names])) _ _ _ _ hcall)

theorem Enters.congr {body : List Stmt} (h : env.Shares names env') (henters : Enters env st s body t)
    (hn : st.names ⊆ names) : Enters env' st s body t := by
  cases henters with
  | branch hc =>
    refine .branch (eval_congr h _ (fun m hm => hn ?_) ▸ hc)
    simp [Stmt.names, hm]
  | loop hloop => exact .loop (execBlock_congr h body hn ▸ hloop)
  | other hbody hbranch hloop => exact .other hbody hbranch hloop _ _

theorem Reaches.congr (h : env.Shares names env')
    (hinside : ∀ n ∈ names, ∀ values s x u, inside n values s x u → inside' n values s x u)
    (hreaches : Reaches env inside code s x u) (hn : Stmt.namesOfBlock code ⊆ names) :
    Reaches env' inside' code s x u := by
  induction hreaches with
  | @look st _ e _ before after _ _ _ _ hsplit hbefore hlook =>
    have he : ∀ q ∈ before ++ e :: after, q.names ⊆ names := fun q hq m hm =>
      hn (Stmt.mem_namesOfBlock.2 ⟨st, by simp, Stmt.mem_names_iff_parts.2
        (.inr (.inl ⟨q, hsplit ▸ hq, hm⟩))⟩)
    have hbefore' := evalItems_congr h before fun q hq => he q (List.mem_append_left _ hq)
    exact .look hsplit (hbefore' ▸ hbefore) (hlook.congr h hinside (he e (by simp)))
  | @block st _ body _ _ _ _ hst _ ih =>
    have hst' : st.names ⊆ names := fun m hm => hn (Stmt.mem_namesOfBlock.2 ⟨st, by simp, hm⟩)
    exact .block (hst.congr h hst') (ih fun m hm =>
      hst' (Stmt.mem_names_iff_parts.2 (.inr (.inr ⟨body, hst.mem_blocks, hm⟩))))
  | @next st rest _ _ _ _ hst _ ih =>
    rw [Stmt.namesOfBlock, List.append_subset] at hn
    exact .next (exec_congr h st hn.1 ▸ hst) (ih hn.2)

/-- A call looks at nothing else in a program in which all that it leads to stands for the same. -/
theorem callLooks_congr {p q : Program} (h : Shares names p q) (rounds left : Nat) :
    ∀ n ∈ names, ∀ values s x u, callLooks p rounds left n values s x u →
      callLooks q rounds left n values s x u := by
  induction left with
  | zero => exact fun _ _ _ _ _ _ h => h
  | succ left ih =>
    rintro n hn values s x u ⟨f, hf, hreaches⟩
    have hcallee : ∃ m ∈ names, p.function? m = some f ∧ q.callee? n = some f := by
      simp only [Program.callee?, ← h.function n hn, ← h.value n hn] at hf ⊢
      split at hf
      · rename_i hfunction
        exact ⟨n, hn, hfunction.trans hf, hf⟩
      · rename_i target _ htarget
        exact ⟨target, h.leads n hn _ htarget, hf, (h.function target (h.leads n hn _ htarget)) ▸ hf⟩
      · cases hf
    obtain ⟨m, hm, hfunction, hq⟩ := hcallee
    have hshares : Env.Shares names ⟨p, callFunction p rounds left, rounds⟩
        ⟨q, callFunction q rounds left, rounds⟩ :=
      ⟨h.function, h.value, h.leads, callFunction_congr h rounds left, rfl⟩
    exact ⟨f, hq, hreaches.congr hshares ih (h.mentions m hm f hfunction)⟩

end Machine
end SchemaCompiler
