import SchemaCompiler.Proofs.Machine.Related

/-!
# Programs and the names that they mention

What an expression or a statement does depends on what the names stand for that it mentions, and on
nothing else of the program. So two programs in which some names stand for the same, those included
which these lead to, do the same when a function of such a name is called.
-/
namespace SchemaCompiler.Machine

/-- Some names stand for the same in two surroundings, and so do those that their values lead to. -/
structure Env.Shares (names : List Name) (env env' : Env) : Prop where
  function : ∀ n ∈ names, env.program.function? n = env'.program.function? n
  value : ∀ n ∈ names, env.program.value? n = env'.program.value? n
  leads : ∀ n ∈ names, ∀ f, env.program.value? n = some (.function f) → f ∈ names
  call : ∀ n ∈ names, env.call n = env'.call n
  rounds : env.rounds = env'.rounds

variable {names : List Name} {env env' : Env}

theorem readName_congr (h : env.Shares names env') {n : Name} (hn : n ∈ names) :
    readName env n = readName env' n := by
  unfold readName
  rw [h.value n hn]

/-! ## Code -/

theorem related_eq : Related fun α (x y : Exec α) => x = y where
  pure _ := rfl
  stop _ := rfl
  bind hx hf := by rw [hx, funext hf]

theorem callName_congr (h : env.Shares names env') {n : Name} (hn : n ∈ names) (args : List Json) :
    callName env n args = callName env' n args := by
  refine related_eq.callName (by rw [h.function n hn]) (h.value n hn) ?_
  rintro m (⟨-, rfl⟩ | hm)
  · rw [h.call m hn]
  · rw [h.call m (h.leads n hn m hm)]

theorem executes_eq : Executes fun _ α (x y : Exec α) => x = y where
  related _ := related_eq
  stop _ := rfl
  look _ := rfl
  update _ _ := rfl
  observe hx hf := by rw [hx, funext hf]

theorem eval_congr (h : env.Shares names env') (e : Expr) (hn : e.names ⊆ names) :
    eval env e = eval env' e :=
  related_eq.eval (Q := fun e => e.names ⊆ names)
    { parts := fun he hp _ hm => he (Expr.mem_names_iff_parts.2 (.inr ⟨_, hp, hm⟩))
      read := fun hn => readName_congr h (hn (List.mem_singleton_self _))
      call := fun vs hn => callName_congr h (hn (List.mem_cons_self ..)) vs
      count := fun _ => rfl } hn

theorem evalItems_congr (h : env.Shares names env') (items : List Expr)
    (hn : ∀ e ∈ items, e.names ⊆ names) : evalItems env items = evalItems env' items :=
  related_eq.evalItems fun e he => eval_congr h e (hn e he)

theorem exec_congr (h : env.Shares names env') (st : Stmt) (hn : st.names ⊆ names) :
    exec env st = exec env' st :=
  executes_eq.exec h.rounds (fun _ e => eval_congr h e) st hn False

theorem execBlock_congr (h : env.Shares names env') (stmts : List Stmt)
    (hn : Stmt.namesOfBlock stmts ⊆ names) : execBlock env stmts = execBlock env' stmts :=
  executes_eq.execBlock (b := False) fun st hst _ => exec_congr h st fun _ hm =>
    hn (Stmt.mem_namesOfBlock.2 ⟨st, hst, hm⟩)

/-! ## Calls -/

/-- Some names stand for the same in two programs, and these programs lead from them to no others. -/
structure Shares (names : List Name) (p q : Program) : Prop where
  function : ∀ n ∈ names, p.function? n = q.function? n
  value : ∀ n ∈ names, p.value? n = q.value? n
  mentions : ∀ n ∈ names, ∀ f, p.function? n = some f → f.referencedNames ⊆ names
  leads : ∀ n ∈ names, ∀ f, p.value? n = some (.function f) → f ∈ names
  maxDepth : p.maxDepth = q.maxDepth

/-- A function does the same in two programs in which all that it leads to stands for the same. -/
theorem callFunction_congr {p q : Program} (h : Shares names p q) (rounds left : Nat) :
    ∀ n ∈ names, callFunction p rounds left n = callFunction q rounds left n := by
  induction left with
  | zero =>
    intro n hn
    funext args
    rw [callFunction, callFunction, h.function n hn, h.maxDepth]
  | succ left ih =>
    intro n hn
    funext args
    rw [callFunction, callFunction, ← h.function n hn]
    cases hf : p.function? n with
    | none => rfl
    | some f =>
      have hshares : Env.Shares names ⟨p, callFunction p rounds left, rounds⟩
          ⟨q, callFunction q rounds left, rounds⟩ := ⟨h.function, h.value, h.leads, ih, rfl⟩
      dsimp only
      rw [invoke, invoke, execBlock_congr hshares f.body (h.mentions n hn f hf)]

end SchemaCompiler.Machine
