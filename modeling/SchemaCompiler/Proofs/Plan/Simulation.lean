import SchemaCompiler.Proofs.Plan.Carries

/-!
# Plans and their code

The code of a plan that fits does on the machine what the plan means, in every mode of treating
errors. The proof goes along the plan. What it carries is that the machine and the meaning agree on
the variables that may be read, that the error counts that are remembered stay as they are, and
that the count at the start of a schema is the one there is now wherever code relies on that.
-/
namespace SchemaCompiler

open Machine Machine Assoc

variable {w : Setting} {env : Env} {callable : Name → Bool → Prop} {m : Mode} {Γ : Context}
  {E errors : List Json} {l ρ l' : Locals} {R M : Name → Prop} {args : List Expr}
  {before callee : Name} {t : Trial}

def Setting.Answered (w : Setting) (env : Env) (callable : Name → Bool → Prop) : Prop :=
  ∀ callee isAsync, callable callee isAsync → ∀ args (s : State), s.errors.length ≤ recordLimit →
    Answers isAsync s (w.call callee args) (ran (callName env callee args) s)

/-! ## Quiet statements -/

theorem Carries.quiet (he : env.Holds w.values) {stmts : List Stmt}
    (hq : Stmt.QuietBlock Γ.reads stmts) (ht : ∀ n ∈ Stmt.targetsOf stmts, ¬ Γ.Fixed n)
    (ha : Agree Γ.reads l ρ) (hE : E.length ≤ recordLimit) :
    Carries m Γ.reads Γ.marks (Stmt.declaredOf stmts) E l (w.quietly stmts ρ)
      (ran (execBlock env stmts) ⟨E, l⟩) := by
  obtain ⟨r, s, t, hs, hw, hplain, hagree⟩ :=
    execBlock_parallel he (silentEnv_holds he.inert) stmts hq ⟨E, l⟩ ⟨[], ρ⟩ ha
  obtain ⟨herr, hkept⟩ := execBlock_keeps he stmts hq
    (fun _ => id) ⟨E, l⟩
  have hends := execBlock_ends env stmts hq ⟨E, l⟩
  rw [hs] at herr hkept hends
  have hmarks : Agree Γ.marks s.locals l := fun n hn => hkept n fun hmem => ht n hmem (.inl hn)
  have room : (E ++ []).length ≤ recordLimit := by simpa using hE
  obtain ⟨errors, locals⟩ := s
  obtain rfl : errors = E := herr
  rw [hs, Setting.quietly, hw]
  cases r with
  | error a => exact .stops (hplain a rfl) (List.prefix_refl _)
  | ok flow =>
    have hag := hagree flow rfl
    cases flow with
    | normal =>
      have h := Carries.onward (m := m) room hag hmarks
      rwa [List.append_nil] at h
    | leave =>
      have h : Carries m Γ.reads Γ.marks (Stmt.declaredOf stmts) errors l _ _ :=
        .loop room hag hmarks
      rwa [List.append_nil] at h
    | «return» v => rcases hends _ _ rfl with h | ⟨h, -⟩ <;> cases h

/-! ## Loops -/

theorem Traversal.ran_stmt (he : env.Holds w.values) (ha : Agree Γ.reads l ρ) {along : Traversal}
    (ho : along.Within Γ.reads) (var : Name) (body : List Stmt) (E : List Json) :
    ran (exec env (along.stmt var body)) ⟨E, l⟩ =
        follow (fun vs => ran (loopOver var (execBlock env body) vs)) (along.values w ρ, ⟨E, l⟩) ∧
      ∀ a, along.values w ρ = .error a → a.Plain := by
  cases along with
  | keys object | items object =>
    obtain ⟨hr, hplain⟩ := Setting.ran_eval he ha ho E
    simp only [stmt, values, exec, ran_bind, hr]
    cases hv : w.eval ρ object with
    | error a => exact ⟨rfl, by rintro _ ⟨⟩; exact hplain a hv⟩
    | ok v => exact ⟨rfl, by rintro _ ⟨⟩⟩
  | range start stop =>
    obtain ⟨hr, hplain⟩ := Setting.ran_index he ha ho.1 E
    obtain ⟨hr', hplain'⟩ := Setting.ran_index he ha ho.2 E
    have hexec : exec env (stmt var body (range start stop)) =
        ((eval env start >>= fun v => checked (asIndex v)) >>= fun i =>
          (eval env stop >>= fun v => checked (asIndex v)) >>= fun j =>
            loopRange var (execBlock env body) (j - i) i) := by
      simp [stmt, exec]
    rw [hexec, ran_bind, hr, values]
    cases hi : w.index ρ start with
    | error a => exact ⟨rfl, by rintro _ ⟨⟩; exact hplain a hi⟩
    | ok i =>
      rw [follow_ok, ran_bind, hr']
      cases hj : w.index ρ stop with
      | error a => exact ⟨rfl, by rintro _ ⟨⟩; exact hplain' a hj⟩
      | ok j =>
        rw [follow_ok, loopRange_eq]
        exact ⟨rfl, by rintro _ ⟨⟩⟩

theorem Carries.rounds {R M : Name → Prop} {var : Name} (hvar : ¬ M var) {D : List Name}
    {meaning : Locals → Except Abort Finding} {body : Exec Flow}
    (hbody : ∀ (E : List Json) (l ρ : Locals), E.length ≤ recordLimit →
      Agree (fun n => R n ∨ n = var) l ρ →
        Carries m (fun n => R n ∨ n = var) M D E l (meaning ρ) (ran body ⟨E, l⟩)) :
    ∀ (vs : List Json) (E : List Json) (l ρ : Locals), E.length ≤ recordLimit → Agree R l ρ →
      Carries m R M [] E l (rounds var meaning vs ρ) (ran (loopOver var body vs) ⟨E, l⟩)
  | [], E, l, ρ, hE, ha => .clear ha hE
  | v :: vs, E, l, ρ, hE, ha => by
    have hround := hbody E _ _ hE (ha.insert var v)
    have hmark : Agree M _ l := (Agree.refl M l).insert_left hvar v
    simp only [loopOver, ran_bind, ran_setLocal, follow_ok, SchemaCompiler.rounds]
    revert hround
    generalize meaning _ = r
    generalize ran body ⟨E, insert var v l⟩ = out
    intro hround
    cases hround with
    | full r stay => exact .full _ stay
    | stops plain stay => exact .stops plain stay
    | onward room agree kept =>
      exact (Carries.rounds hvar hbody vs _ _ _ room (agree.mono fun n hn => .inl (.inl hn))).behind
        (kept.trans hmark)
    | loop room agree kept =>
      exact .onward room (agree.mono fun n hn => .inl (hn.resolve_right List.not_mem_nil))
        (kept.trans hmark)
    | function room =>
      rw [Mode.follow_left m fun _ _ => rfl]
      exact .function room

/-! ## Calls -/

theorem Mode.ran_leavingIf {c : Expr} {b : Bool} {s : State}
    (hc : ran (eval env c) s = (.ok (.bool b), s)) :
    ran (execBlock env (m.leavingIf c)) s =
      (if m.failsFast && b then m.left else .ok .normal, s) := by
  cases hf : m.failsFast with
  | false => simp [leavingIf, hf]
  | true =>
    simp only [leavingIf, hf, if_true, ran_execBlock_singleton, ran_branch, hc, truthy]
    cases b with
    | true => simpa using ran_leaving env m [] s
    | false => rfl

/-- What a call that found errors comes to, once it has been seen whether the function is left. -/
theorem Carries.called (room : (E ++ errors).length ≤ recordLimit) (ha : Agree R l' ρ)
    (hk : Agree M l' l) : Carries m R M [] E l
      (.ok ⟨errors, if m.failsFast && !errors.isEmpty then .function else .onward, ρ⟩)
      (if m.failsFast && !errors.isEmpty then m.left else .ok .normal, ⟨E ++ errors, l'⟩) := by
  split
  · exact .function room
  · exact .onward room (ha.mono fun n hn => hn.resolve_right List.not_mem_nil) hk

theorem ran_call (he : env.Holds w.values) (ha : Agree Γ.reads l ρ)
    (hargs : Expr.WithinItems Γ.reads args) (callee : Name) (E : List Json) :
    ran (eval env (.callName callee args)) ⟨E, l⟩ =
        follow (fun vs => ran (callName env callee vs)) (w.evalItems ρ args, ⟨E, l⟩) ∧
      ∀ a, w.evalItems ρ args = .error a → a.Plain := by
  obtain ⟨hr, hplain⟩ := Setting.ran_evalItems he ha hargs E
  refine ⟨?_, hplain⟩
  simp only [Expr.callName, eval, ran_bind, hr]

theorem Carries.plain (he : env.Holds w.values) (hcall : w.Answered env callable)
    (hc : callable callee false) {args : List Expr} (hargs : Expr.WithinItems Γ.reads args)
    {valid : Name} (hv : Γ.Fresh valid) (ha : Agree Γ.reads l ρ) (hE : E.length ≤ recordLimit) :
    Carries m Γ.reads Γ.marks [] E l ((Plan.call (.plain valid) callee args).meaning w m ρ)
      (ran (execBlock env ((Invocation.plain valid).code m (.callName callee args))) ⟨E, l⟩) := by
  obtain ⟨hr, hplain⟩ := ran_call he ha hargs callee E
  simp only [Invocation.code, Plan.meaning, ran_execBlock_cons, ran_declare, hr]
  cases hvs : w.evalItems ρ args with
  | error a => exact .stops (hplain a hvs) (List.prefix_refl _)
  | ok vs =>
    have hans := hcall callee false hc vs ⟨E, l⟩ hE
    simp only [follow_ok, bind, Except.bind]
    revert hans
    generalize w.call callee vs = r
    generalize ran (callName env callee vs) ⟨E, l⟩ = out
    intro hans
    cases hans with
    | full r stay => exact .full _ stay
    | stops plain stay => exact .stops plain stay
    | returned async v => cases async
    | thrown async found room => cases async
    | @verdict errors sync room =>
      simp only [follow_ok, onNormal_normal, Expr.negate]
      rw [Mode.ran_leavingIf]
      · exact .called room (ha.insert_left hv.1 _) ((Agree.refl _ _).insert_left hv.2 _)
      · simp only [eval, ran_bind, ran_readName, get?_insert_self]
        rfl

def Stmt.awaiting (call : Expr) (caught : Name) : Stmt :=
  .handled [.expr (.await call)] caught
    [.branch (Expr.index (.var caught) (.str "validation")).negate [.throw (.var caught)] []] []

section Awaiting

variable {call : Expr} (caught : Name) {s t : State}

theorem ran_awaiting_ok {v : Json} (h : ran (eval env call) s = (.ok v, t)) :
    ran (exec env (.awaiting call caught)) s = (.ok .normal, t) := by
  simp only [Stmt.awaiting, exec, ran_bind, ran_observe, ran_execBlock_singleton, eval, h]
  rfl

theorem ran_awaiting_stops {a : Abort} (h : ran (eval env call) s = (.error a, t)) (ha : a.Plain) :
    ∃ u, ran (exec env (.awaiting call caught)) s = (.error a, u) ∧ u.errors = t.errors := by
  simp only [Stmt.awaiting, exec, ran_bind, ran_observe, ran_execBlock_singleton, eval, h,
    follow_error]
  cases a with
  | fault e => cases e <;> exact ⟨t, rfl, rfl⟩
  | thrown v =>
    have hl : lookup v (.string "validation") = none := by
      cases v with
      | object members => exact ha
      | _ => rfl
    simp only [handling, ran_bind, ran_setLocal, ran_observe, follow_ok, ran_execBlock_singleton,
      ran_branch, Expr.negate, Expr.str, eval, ran_pure, ran_readName,
      get?_insert_self, hl, truthy]
    simp [exec, eval, ran_bind, ran_readName, get?_insert_self, concluded]

theorem ran_awaiting_verdict (h : ran (eval env call) s = (.error (.thrown Mode.verdictValue), t)) :
    ran (exec env (.awaiting call caught)) s =
      (.ok .normal, { t with locals := insert caught Mode.verdictValue t.locals }) := by
  simp only [Stmt.awaiting, exec, ran_bind, ran_observe, ran_execBlock_singleton, eval, h,
    follow_error, follow_ok, handling, ran_setLocal, Expr.negate, Expr.str, ran_pure,
    ran_readName, get?_insert_self]
  rfl

end Awaiting

theorem Carries.awaited (he : env.Holds w.values) (hcall : w.Answered env callable)
    (hc : callable callee true) (hargs : Expr.WithinItems Γ.reads args) {caught : Name}
    (hb : Γ.Fresh before) (hcaught : Γ.Fresh caught) (hne : caught ≠ before)
    (ha : Agree Γ.reads l ρ) (hE : E.length ≤ recordLimit) : Carries m Γ.reads Γ.marks [] E l
      ((Plan.call (.awaited before caught) callee args).meaning w m ρ)
      (ran (execBlock env ((Invocation.awaited before caught).code m (.callName callee args)))
        ⟨E, l⟩) := by
  have ha' := ha.insert_left hb.1 (Json.ofNat E.length)
  have hk' := (Agree.refl Γ.marks l).insert_left hb.2 (Json.ofNat E.length)
  obtain ⟨hr, hplain⟩ := ran_call he ha' hargs callee E
  have hcode : (Invocation.awaited before caught).code m (.callName callee args) =
      .mark before :: .awaiting _ caught
        :: m.leavingIf _ := rfl
  rw [hcode, ran_execBlock_cons, ran_mark, follow_ok, onNormal_normal, ran_execBlock_cons]
  -- The errors found decide how the function is left, whether they were thrown or not.
  have hdone : ∀ (errors : List Json) (l' : Locals), (E ++ errors).length ≤ recordLimit →
      Agree Γ.reads l' ρ → Agree Γ.marks l' l →
      get? before l' = some (Json.ofNat E.length) →
      Carries m Γ.reads Γ.marks [] E l
        (.ok ⟨errors, if m.failsFast && !errors.isEmpty then .function else .onward, ρ⟩)
        (ran (execBlock env (m.leavingIf (.differs .errorCount (.var before))))
          ⟨E ++ errors, l'⟩) := by
    intro errors l' room hag hkept hmark
    rw [Mode.ran_leavingIf]
    · exact .called room hag hkept
    · rw [ran_moved env hE hmark room]
      cases errors <;> simp
  simp only [Plan.meaning]
  cases hvs : w.evalItems ρ args with
  | error a =>
    rw [hvs] at hr
    obtain ⟨u, hu, herrors⟩ := ran_awaiting_stops caught hr (hplain a hvs)
    rw [hu]
    exact .stops (hplain a hvs) (herrors ▸ List.prefix_refl E)
  | ok vs =>
    rw [hvs, follow_ok] at hr
    have hans := hcall callee true hc vs ⟨E, insert before (Json.ofNat E.length) l⟩ hE
    rw [← hr] at hans
    simp only [bind, Except.bind]
    revert hans
    generalize w.call callee vs = r
    generalize hout : ran (eval env _)
      ⟨E, insert before _ l⟩ = out
    intro hans
    have hmark := get?_insert_self before (Json.ofNat E.length) l
    cases hans with
    | full r stay =>
      obtain ⟨u, hu, herrors⟩ := ran_awaiting_stops caught hout trivial
      rw [hu]
      exact .full _ (herrors ▸ stay)
    | stops plain stay =>
      obtain ⟨u, hu, herrors⟩ := ran_awaiting_stops caught hout plain
      rw [hu]
      exact .stops plain (herrors ▸ stay)
    | verdict sync room => cases sync
    | returned async v =>
      rw [ran_awaiting_ok caught hout]
      have h := hdone [] _ (by simpa using hE) ha' hk' hmark
      rw [List.append_nil] at h
      exact h
    | thrown async found room =>
      rw [ran_awaiting_verdict caught hout]
      refine hdone _ _ room (ha'.insert_left hcaught.1 _) (hk'.insert_left hcaught.2 _) ?_
      rw [get?_insert_of_ne hne.symm]
      exact hmark

/-! ## Trials and settlements -/

/-- Entering a trial: the step into the data gives the same on the machine, and it does not touch
the error count that has just been remembered. -/
theorem Trial.ran_enter (he : env.Holds w.values)
    (hd : ∀ d ∈ t.descent, d.Fits Γ ∧ d.name ≠ t.before)
    (ha : Agree Γ.reads l ρ) (hmark : get? t.before l = some (Json.ofNat E.length)) :
    (∃ a, t.enter w ρ = .error a ∧ a.Plain ∧
      ran (execBlock env (t.descent.map Descent.stmt).toList) ⟨E, l⟩ = (.error a, ⟨E, l⟩)) ∨
    ∃ ρ' l', t.enter w ρ = .ok ρ' ∧
      ran (execBlock env (t.descent.map Descent.stmt).toList) ⟨E, l⟩ = (.ok .normal, ⟨E, l'⟩) ∧
      Agree (Γ.inTrial t).reads l' ρ' ∧ Agree Γ.marks l' l ∧
      get? t.before l' = some (Json.ofNat E.length) := by
  cases hdesc : t.descent with
  | none =>
    refine .inr ⟨ρ, l, by simp [enter, hdesc], rfl, ?_, Agree.refl _ _, hmark⟩
    exact ha.mono fun n hn => hn.resolve_right (by simp [hdesc])
  | some d =>
    obtain ⟨hfits, hne⟩ := hd d hdesc
    have hwithin : (Expr.index (.var d.base) d.key).Within Γ.reads := ⟨hfits.base.1, hfits.key⟩
    obtain ⟨hr, hplain⟩ := Setting.ran_eval he ha hwithin E
    simp only [enter, hdesc, Option.map_some, Option.toList_some, ran_execBlock_singleton,
      Descent.stmt, ran_declare, hr]
    cases hv : w.eval ρ _ with
    | error a => exact .inl ⟨a, rfl, hplain a hv, rfl⟩
    | ok v =>
      refine .inr ⟨insert d.name v ρ, insert d.name v l, rfl, rfl, ?_, ?_, ?_⟩
      · exact (ha.insert d.name v).mono fun n hn => by simpa [Context.inTrial, hdesc] using hn
      · exact (Agree.refl _ _).insert_left hfits.fresh.2 v
      · rw [get?_insert_of_ne hne.symm]
        exact hmark

/-- The end of a trial: whether there are no errors since its count is given a name. -/
theorem Trial.ran_conclude (room : (E ++ errors).length ≤ recordLimit)
    (hmark : get? t.before l = some (Json.ofNat E.length)) :
    ran (execBlock env (.declare t.valid (some (.unmoved t.before)) true
        :: if t.breaks && !m.allErrors then [.branch (Expr.var t.valid).negate [.leave] []] else []))
      ⟨E ++ errors, l⟩ =
    (.ok (if t.breaks && !m.allErrors && !errors.isEmpty then .leave else .normal),
      ⟨E ++ errors, insert t.valid (.bool errors.isEmpty) l⟩) := by
  have hE : E.length ≤ recordLimit := Nat.le_trans (by simp) room
  have hempty : decide ((E ++ errors).length = E.length) = errors.isEmpty := by
    cases errors <;> simp
  rw [ran_execBlock_cons, ran_declare, ran_unmoved env hE hmark room, follow_ok, follow_ok,
    onNormal_normal, hempty]
  cases hb : t.breaks && !m.allErrors with
  | false => rfl
  | true =>
    simp only [if_true, ran_execBlock_singleton, ran_branch, Expr.negate, eval, ran_bind,
      ran_readName, get?_insert_self]
    cases errors.isEmpty <;> rfl

theorem Carries.settlement (he : env.Holds w.values) {D : List Name} {s : Settlement}
    (hs : s.Within (fun n => R n ∨ n ∈ D)) (room : (E ++ errors).length ≤ recordLimit)
    (ha : Agree (fun n => R n ∨ n ∈ D) l' ρ) (hk : Agree M l' l)
    (hmark : get? before l' = some (Json.ofNat E.length)) :
    Carries m R M D E l (s.meaning w m ⟨errors, .onward, ρ⟩)
      (ran (execBlock env (s.code m before)) ⟨E ++ errors, l'⟩) := by
  have hE : E.length ≤ recordLimit := Nat.le_trans (by simp) room
  have hdrop : Carries m R M D E l (.ok (Finding.dropped ⟨errors, .onward, ρ⟩))
      (ran (execBlock env [.resetErrors (.var before)]) ⟨E ++ errors, l'⟩) := by
    rw [ran_execBlock_singleton, ran_resetErrors env hE hmark, List.take_left]
    have h : Carries m R M D E l (.ok ⟨[], .onward, ρ⟩) _ :=
      .onward (by simpa using hE) ha hk
    rwa [List.append_nil] at h
  have hreport : ∀ {record : Expr}, record.Within (fun n => R n ∨ n ∈ D) →
      Carries m R M D E l ((w.report m record false ρ).map (Finding.behind errors))
        (ran (execBlock env (m.reporting record)) ⟨E ++ errors, l'⟩) := by
    intro record hr
    have h := Carries.report (m := m) (M := M) (E := E ++ errors) he ha hr false
    rw [if_neg (by simp), List.append_nil] at h
    exact (h.behind hk).weaken (fun n hn => .inl hn) (fun _ => id) fun n hn => .inl (.inr hn)
  cases s with
  | drop => exact hdrop
  | dropIf condition record =>
    rw [Settlement.code, ran_execBlock_singleton]
    exact .branch he (List.prefix_append _ _) ha hs.1 (fun _ => hdrop) fun _ => hreport hs.2
  | dropUnless condition record =>
    rw [Settlement.code, ran_execBlock_singleton]
    exact .branch he (List.prefix_append _ _) ha hs.1 (fun _ => hreport hs.2) fun _ => hdrop

/-! ## Whole plans -/

theorem bind_ok {ε α : Type} (x : Except ε α) : (x >>= fun a => .ok a) = x := by
  cases x <;> rfl

theorem Finding.map_behind_nil (x : Except Abort Finding) : x.map (Finding.behind []) = x := by
  cases x <;> rfl

theorem demand_eq (c : Except Abort Bool) (report : Except Abort Finding)
    (rest : Locals → Except Abort Finding) (ρ : Locals) :
    (do if ← c then (do let f ← report; f.andThen rest) else rest ρ) =
      (do if ← c then report else .ok (.clear ρ)) >>= fun f => f.andThen rest := by
  cases c with
  | error a => rfl
  | ok b =>
    cases b with
    | true => rfl
    | false => exact (Finding.map_behind_nil _).symm

/-- The error count at the start of the schema is the one there is now, where code relies on it. -/
def Context.Unmoved (Γ : Context) (m : Mode) (E : List Json) (l : Locals) : Prop :=
  m.allErrors = false → ∀ before, Γ.node = some before →
    Γ.marks before ∧ get? before l = some (Json.ofNat E.length)

theorem Context.unmoved_loose (Γ : Context) (m : Mode) (E : List Json) (l : Locals) :
    Γ.loose.Unmoved m E l := by
  intro _ before h
  cases h

theorem Plan.carries (he : env.Holds w.values) (hcall : w.Answered env callable) (p : Plan)
    (hp : p.Fits callable Γ) (ha : Agree Γ.reads l ρ) (hE : E.length ≤ recordLimit)
    (hn : Γ.Unmoved m E l) :
    Carries m Γ.reads Γ.marks p.declared E l (p.meaning w m ρ)
      (ran (execBlock env (p.code m)) ⟨E, l⟩) := by
  induction p generalizing Γ m E l ρ with
  | nothing => exact .clear ha hE
  | report record breaks => exact .report he ha hp breaks
  | seq first second ihf ihs =>
    simp only [code, ran_execBlock_append]
    refine (ihf hp.1 ha hE (Γ.unmoved_loose m E l)).andThen fun errors ρ' l' room hag hk => ?_
    refine (ihs hp.2 hag room ?_).weaken (fun n hn => .inl hn) (fun _ => id) fun n hn => ?_
    · exact (Γ.declare first.declared).unmoved_loose m _ _
    · simp only [declared, List.mem_append] at hn
      rcases hn with hn | hn
      · exact .inl (.inr hn)
      · exact .inr hn
  | quiet stmts => exact .quiet he hp.1 hp.2 ha hE
  | branch condition yes no ihy ihn =>
    simp only [code, ran_execBlock_singleton]
    refine .branch he (List.prefix_refl _) ha hp.1 (fun _ => ?_) fun _ => ?_
    · exact (ihy hp.2.1 ha hE (Γ.unmoved_loose m E l)).weaken (fun _ => id) (fun _ => id) (by
        simp [declared])
    · exact (ihn hp.2.2 ha hE (Γ.unmoved_loose m E l)).weaken (fun _ => id) (fun _ => id) (by
        simp [declared])
  | demand condition record rest ih =>
    have hreport : Carries m Γ.reads Γ.marks [] E l (w.report m record false ρ)
        (ran (execBlock env (m.reporting record)) ⟨E, l⟩) := by
      have h := Carries.report (m := m) (M := Γ.marks) (E := E) he ha hp.2.1 false
      rwa [if_neg (by simp), List.append_nil] at h
    have hrest : ∀ (F : List Json) (l' ρ' : Locals), F.length ≤ recordLimit →
        Agree Γ.reads l' ρ' → Carries m Γ.reads Γ.marks [] F l' _
          _ := fun F l' ρ' hF hag =>
      (ih hp.2.2.1 hag hF (Γ.frozen.unmoved_loose m F l')).weaken (fun _ => id) (fun _ => id)
        (by simp)
    simp only [code, meaning]
    cases hall : m.allErrors with
    | false =>
      simp only [Bool.false_eq_true, if_false, ran_execBlock_singleton, bind_ok]
      exact .branch he (List.prefix_refl _) ha hp.1 (fun _ => hreport) fun _ => hrest E l ρ hE ha
    | true =>
      have hfirst := Carries.branch
        (N := []) he (List.prefix_refl _) ha hp.1 (fun _ => hreport) fun _ => .clear ha hE
      simp only [if_true, ran_execBlock_cons]
      rw [demand_eq]
      exact hfirst.andThen fun errors ρ' l' room hag _ =>
        hrest _ l' ρ' room (hag.mono fun n hn => .inl hn)
  | typed pinned test body ih =>
    have hbody : Carries m Γ.reads Γ.marks [] E l _
        _ :=
      (ih hp.2.2 ha hE hn).weaken (fun _ => id) (fun _ => id) (by simp)
    simp only [code, meaning]
    split
    · exact hbody
    · rw [ran_execBlock_singleton]
      exact .branch he (List.prefix_refl _) ha hp.1 (fun _ => hbody) fun _ => .clear ha hE
  | next before first second ihf ihs =>
    obtain ⟨hnode, hfirst, hsecond, -⟩ := hp
    have hf := ihf hfirst ha hE hn
    have hs : ∀ (F : List Json) (l' ρ' : Locals), F.length ≤ recordLimit → Agree Γ.reads l' ρ' →
        Γ.Unmoved m F l' → Carries m Γ.reads Γ.marks [] F l' _
          _ := fun F l' ρ' hF hag hun =>
      (ihs hsecond hag hF hun).weaken (fun _ => id) (fun _ => id) (by simp)
    simp only [code, meaning]
    cases hall : m.allErrors with
    | true =>
      simp only [if_true, ran_execBlock_append]
      exact hf.andThen fun errors ρ' l' room hag _ =>
        hs _ l' ρ' room (hag.mono fun n hn => .inl hn) (by simp [Context.Unmoved, hall])
    | false =>
      simp only [Bool.false_eq_true, if_false, ran_execBlock_append]
      obtain ⟨hmarks, hcount⟩ := hn hall before hnode
      refine hf.follow (fun errors ρ' l' room hag hk => ?_) fun f hf => Finding.andThen_ended hf _
      refine Carries.behind ?_ hk
      have hag' : Agree Γ.reads l' ρ' := hag.mono fun n hn => .inl hn
      have hcount' : get? before l' = some (Json.ofNat E.length) := by
        rw [hk before hmarks]
        exact hcount
      rw [ran_execBlock_singleton, ran_branch, ran_unmoved env hE hcount' room]
      cases errors with
      | nil =>
        simp only [List.append_nil]
        refine hs E l' ρ' hE hag' fun _ b hb => ?_
        rw [hnode, Option.some.injEq] at hb
        subst hb
        exact ⟨hmarks, hcount'⟩
      | cons e es =>
        simp only [List.length_append, Nat.add_eq_left]
        exact .clear hag' room
  | trial t body ih =>
    obtain ⟨hb, hvalid, hd, hbody, -⟩ := hp
    have ha₁ := ha.insert_left hb.1 (Json.ofNat E.length)
    have hk₁ := (Agree.refl Γ.marks l).insert_left hb.2 (Json.ofNat E.length)
    have hcount₁ := get?_insert_self t.before (Json.ofNat E.length) l
    simp only [code, meaning, ran_execBlock_cons, ran_mark, follow_ok, onNormal_normal,
      ran_execBlock_append]
    rcases Trial.ran_enter he hd ha₁ hcount₁ with
      ⟨a, henter, hplain, hran⟩ | ⟨ρ₂, l₂, henter, hran, ha₂, hk₂, hcount₂⟩
    · rw [henter, hran]
      exact .stops hplain (List.prefix_refl _)
    · rw [henter, hran]
      have hinner := ih (m := m.part t.composed) hbody ha₂ hE fun _ b hnode => by
        obtain rfl : t.before = b := Option.some.inj hnode
        exact ⟨.inr rfl, hcount₂⟩
      refine hinner.enclosed (Mode.left_part _ m) (fun n hn => .inl hn) (fun n hn => .inl hn)
        (hk₂.trans hk₁) (fun errors ρ' l' hf room hag hk => ?_) fun f hf => ?_
      · have hcount : get? t.before l' = some (Json.ofNat E.length) := by
          rw [hk t.before (.inr rfl)]
          exact hcount₂
        -- What can be read outside of the trial is as it was before it.
        have hsame : Agree Γ.reads l' ρ := by
          have hbefore : Agree Γ.reads ρ₂ ρ := Trial.agree_enter (fun d h => (hd d h).1.fresh.1) henter
          have hinside : Agree Γ.reads ρ' ρ₂ :=
            (Plan.agree_meaning_of_frozen he.inert hbody hf fun _ => id).mono fun n hn => .inl hn
          exact ((hag.mono fun n hn => .inl (.inl hn)).trans hinside).trans hbefore
        have hkept : Agree Γ.marks l' l := ((hk.mono fun n hn => .inl hn).trans hk₂).trans hk₁
        rw [Trial.ran_conclude room hcount]
        have hag' := (hsame.insert t.valid (.bool errors.isEmpty)).mono (S := fun n =>
          Γ.reads n ∨ n ∈ [t.valid]) fun n hn => by simpa using hn
        have hkept' := hkept.insert_left hvalid.2 (.bool errors.isEmpty)
        simp only [Trial.conclude]
        split
        · exact .loop room (hag'.mono fun n hn => .inl hn) hkept'
        · exact .onward room hag' hkept'
      · cases hx : f.exit with
        | onward => exact absurd hx hf
        | _ => simp only [Trial.conclude]; rfl
  | settle before body settlement ih =>
    obtain ⟨hb, hbody, hs, -⟩ := hp
    have ha' := ha.insert_left hb.1 (Json.ofNat E.length)
    have hk' := (Agree.refl Γ.marks l).insert_left hb.2 (Json.ofNat E.length)
    simp only [code, ran_execBlock_cons, ran_mark, follow_ok, onNormal_normal,
      ran_execBlock_append]
    have hinner := ih (m := m.part true) hbody ha' hE (by intro _ b hnode; cases hnode)
    refine hinner.enclosed (Mode.left_part _ m) (fun _ => id) (fun n hn => .inl hn) hk'
      (fun errors ρ' l' _ room hag hk => ?_) fun f hf => ?_
    · have hcount : get? before l' = some (Json.ofNat E.length) := by
        rw [hk before (.inr rfl), get?_insert_self]
      exact .settlement he hs room hag ((hk.mono fun n hn => .inl hn).trans hk') hcount
    · cases hx : f.exit with
      | onward => exact absurd hx hf
      | _ => rfl
  | loop var along body ih =>
    obtain ⟨hover, hvar, hbody⟩ := hp
    obtain ⟨hr, hplain⟩ := Traversal.ran_stmt he ha hover var (body.code m) E
    simp only [code, meaning, ran_execBlock_singleton, hr]
    cases hvs : along.values w ρ with
    | error a => exact .stops (hplain a hvs) (List.prefix_refl _)
    | ok vs =>
      exact Carries.rounds hvar.2 (fun F l' ρ' hF hag =>
        ih hbody hag hF (by intro _ b hb; cases hb)) vs E l ρ hE ha
  | leave =>
    have h : Carries m Γ.reads Γ.marks [] E l (.ok ⟨[], .loop, ρ⟩) _ :=
      .loop (by simpa using hE) ha (Agree.refl _ _)
    rw [List.append_nil] at h
    exact h
  | call invocation callee args =>
    obtain ⟨hinv, hargs, hc, -⟩ := hp
    cases invocation with
    | plain valid => exact .plain he hcall hc hargs hinv ha hE
    | awaited before caught =>
      exact .awaited he hcall hc hargs hinv.1 hinv.2.1 hinv.2.2 ha hE
  | schema s body ih =>
    exact (ih hp.1 ha hE hn).weaken (fun _ => id) (fun _ => id) (by simp [declared])
  | raw stmts => exact hp.elim

end SchemaCompiler
