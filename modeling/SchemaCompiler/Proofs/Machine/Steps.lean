import Mathlib.Data.List.Forall2
import SchemaCompiler.Proofs.Assoc
import SchemaCompiler.Proofs.Machine.Block
import SchemaCompiler.Proofs.Machine.Folding
import SchemaCompiler.Proofs.Machine.Looks

/-!
# What pieces of code do

Code is described by what it makes of the variables. `Gives` and `Truth` are about expressions that
leave the state alone. `Runs w code s o post` is about statements: where a description `o` of the run
has an outcome, the code ends normally in a state of `post`; where it has none, the code stops early.
Descriptions are put together as the code is.

What happens on the way is watched: a `Watch` says which expressions may be looked at in which states,
and how a run may stop early. All descriptions include that the run keeps to it.
-/
namespace SchemaCompiler.Machine

variable {base key a : Expr} {op : BinaryOp} {y : Json} {members : List (String × Expr)}
  {texts : List (String × Json)} {args : List Expr} {routine : Primitive} {constant : Bool}

/-! ## Variables -/

def State.get? (s : State) (n : Name) : Option Json := Assoc.get? n s.locals

def State.put (s : State) (n : Name) (v : Json) : State :=
  { s with locals := Assoc.insert n v s.locals }

@[simp] theorem State.get?_put_self (s : State) (n : Name) (v : Json) :
    (s.put n v).get? n = some v := Assoc.get?_insert_self n v s.locals

theorem State.get?_put_of_ne {n m : Name} (h : m ≠ n) (s : State) (v : Json) :
    (s.put n v).get? m = s.get? m := Assoc.get?_insert_of_ne h v s.locals

/-! ## Watching -/

/-- What is asked of runs: which expressions they may look at, in which states, and how they may stop
early. An expression that reads at no place may be looked at. -/
structure Terms where
  admits : Expr → State → Prop
  stops : Abort → Prop
  plain : ∀ {e : Expr} {s : State}, e.place? = none → admits e s

/-- Where code runs, and what is asked of its runs. -/
structure Watch extends Terms where
  env : Env
  inside : Inside

variable {w : Watch} {s t : State} {e c : Expr} {items : List Expr} {v : Json} {values : List Json}
  {b : Bool} {bs : List Bool} {n : Name} {st : Stmt} {rest first second code : List Stmt}
  {β γ : Type} {o : Option β} {x : β} {k : β → Option γ} {post : β → State → Prop}
  {post' : γ → Flow → State → Prop}

/-! ## Expressions -/

/-- An expression has a value, leaves the state alone, and looks where it may. -/
structure Gives (w : Watch) (e : Expr) (v : Json) (s : State) : Prop where
  ran_eq : ran (eval w.env e) s = (.ok v, s)
  admitted : ∀ x u, Looks w.env w.inside e s x u → w.admits x u

def Truth (w : Watch) (e : Expr) (b : Bool) (s : State) : Prop :=
  ∃ v, Gives w e v s ∧ truthy v = b

theorem Gives.truth (h : Gives w e (.bool b) s) : Truth w e b s :=
  ⟨_, h, rfl⟩

theorem state_of_evalItems (h : ∀ p ∈ items, ∃ v, Gives w p v s)
    (hrun : ran (evalItems w.env items) s = (.ok values, t)) : t = s := by
  induction items generalizing values with
  | nil => cases hrun; rfl
  | cons e rest ih =>
    obtain ⟨v, hv⟩ := h e (by simp)
    simp only [evalItems, ran_bind, hv.ran_eq, follow_ok] at hrun
    rcases hrest : ran _ s with ⟨_ | _, u⟩ <;> rw [hrest] at hrun <;> cases hrun
    exact ih (fun p hp => h p (by simp [hp])) hrest

theorem admitted_of_operands (he : w.admits e s) (hops : ∀ p ∈ e.operands, ∃ v, Gives w p v s)
    (hcall : ∀ n args values x u, e = .call (.var n) args →
      ran (evalItems w.env args) s = (.ok values, s) → w.inside n values s x u → w.admits x u) :
    ∀ x u, Looks w.env w.inside e s x u → w.admits x u := by
  intro x u h
  cases h with
  | here => exact he
  | call hargs h =>
    obtain rfl := state_of_evalItems hops hargs
    exact hcall _ _ _ _ _ rfl hargs h
  | @operand _ p _ _ _ _ _ _ _ hsplit hbefore h =>
    rw [hsplit] at hops
    obtain rfl := state_of_evalItems (fun q hq => hops q (by simp [hq])) hbefore
    obtain ⟨v, hp⟩ := hops p (by simp)
    exact hp.admitted x u h

theorem Gives.of_operands (hv : ran (eval w.env e) s = (.ok v, s)) (he : w.admits e s)
    (hcall : ∀ n args, e ≠ .call (.var n) args) (hops : ∀ p ∈ e.operands, ∃ v, Gives w p v s) :
    Gives w e v s :=
  ⟨hv, admitted_of_operands he hops fun n args _ _ _ h => absurd h (hcall n args)⟩

theorem gives_lit (v : Json) : Gives w (.lit v) v s :=
  .of_operands rfl (w.plain rfl) nofun (by simp [Expr.operands, Expr.parts])

theorem gives_var (h : s.get? n = some v) : Gives w (.var n) v s := by
  have h' : Assoc.get? n s.locals = some v := h
  exact .of_operands (by simp [eval, ran_readName, h']) (w.plain rfl) nofun
    (by simp [Expr.operands, Expr.parts])

theorem gives_index {b k : Json} (hb : Gives w base b s) (hk : Gives w key k s) :
    Gives w (.index base key) ((lookup b k).getD .null) s :=
  .of_operands (by simp [eval, ran_bind, hb.ran_eq, hk.ran_eq]) (w.plain rfl) nofun
    (by simpa [Expr.operands] using ⟨⟨k, hk⟩, ⟨b, hb⟩⟩)

theorem gives_has {b k : Json} (hb : Gives w base b s) (hk : Gives w key k s) :
    Gives w (.has base key) (.bool (lookup b k).isSome) s :=
  .of_operands (by simp [eval, ran_bind, hb.ran_eq, hk.ran_eq]) (w.plain rfl) nofun
    (by simpa [Expr.operands] using ⟨⟨k, hk⟩, ⟨b, hb⟩⟩)

theorem gives_binary {b : Expr} {x z : Json} (ha : Gives w a x s) (hb : Gives w b y s)
    (h : binary op x y = .ok z) : Gives w (.binary op a b) z s :=
  .of_operands (by simp [eval, ran_bind, ha.ran_eq, hb.ran_eq, h, ran_checked, Except.mapError])
    (w.plain rfl) nofun (by simpa [Expr.operands, Expr.parts] using ⟨⟨x, ha⟩, ⟨y, hb⟩⟩)

theorem gives_equals {b : Expr} {x : Json} (ha : Gives w a x s) (hb : Gives w b y s) :
    Gives w (.equals a b) (.bool (strictEq x y)) s := gives_binary ha hb rfl

theorem gives_differs {b : Expr} {x : Json} (ha : Gives w a x s) (hb : Gives w b y s) :
    Gives w (.differs a b) (.bool !strictEq x y) s := gives_binary ha hb rfl

theorem gives_typeIs (h : Gives w e v s) (type : JsonType) :
    Gives w (.typeIs e type) (.bool (type.holds v)) s :=
  .of_operands (by simp [eval, h.ran_eq]) (w.plain rfl) nofun
    (by simpa [Expr.operands, Expr.parts] using ⟨v, h⟩)

theorem gives_len {n : Nat} (h : Gives w e v s) (hn : length? v = some n) :
    Gives w (.len e) (Json.ofNat n) s :=
  .of_operands (by simp [eval, ran_bind, h.ran_eq, hn]) (w.plain rfl) nofun
    (by simpa [Expr.operands, Expr.parts] using ⟨v, h⟩)

theorem gives_slice {text start : Expr} {t i : Json} {n count : Nat} (ht : Gives w text t s)
    (hi : Gives w start i s) (hn : asIndex i = .ok n) (he : w.admits (.slice text start count) s) :
    Gives w (.slice text start count) (.string (slice t n count)) s :=
  .of_operands (by simp [eval, ran_bind, ht.ran_eq, hi.ran_eq, hn, ran_checked, Except.mapError]) he
    nofun (by simpa [Expr.operands] using ⟨⟨i, hi⟩, ⟨t, ht⟩⟩)

theorem evalItems_of_gives (h : List.Forall₂ (fun e v => Gives w e v s) items values) :
    ran (evalItems w.env items) s = (.ok values, s) := by
  induction h with
  | nil => rfl
  | cons hv _ ih => simp [evalItems, ran_bind, hv.ran_eq, ih]

theorem exists_of_forall₂ {α : Type} {R : α → β → Prop} {l : List α} {m : List β}
    (h : List.Forall₂ R l m) : ∀ a ∈ l, ∃ b, R a b := by
  intro a ha
  obtain ⟨i, hi, rfl⟩ := List.getElem_of_mem ha
  exact ⟨_, h.get hi (h.length_eq ▸ hi)⟩

theorem gives_array (h : List.Forall₂ (fun e v => Gives w e v s) items values) :
    Gives w (.array items) (.array values) s :=
  .of_operands (by simp [eval, evalItems_of_gives h]) (w.plain rfl) nofun (exists_of_forall₂ h)

section

variable (h : List.Forall₂ (fun m v => m.1 = v.1 ∧ Gives w m.2 v.2 s) members texts)

include h

theorem evalMembers_of_gives : ran (evalMembers w.env members) s = (.ok texts, s) := by
  induction h with
  | nil => rfl
  | @cons m v _ _ hv _ ih =>
    obtain ⟨k, e⟩ := m
    obtain ⟨rfl, hv⟩ := hv
    simp [evalMembers, ran_bind, hv.ran_eq, ih]

theorem gives_object : Gives w (.object members) (.object (Assoc.ofList texts)) s := by
  refine .of_operands (by simp [eval, evalMembers_of_gives h]) (w.plain rfl) nofun fun p hp => ?_
  obtain ⟨m, hm, rfl⟩ := List.mem_map.1 hp
  obtain ⟨v, -, hv⟩ := exists_of_forall₂ h m hm
  exact ⟨v.2, hv⟩

end

/-! ### Conditions -/

theorem truth_not (h : Truth w e b s) : Truth w (.not e) (!b) s := by
  obtain ⟨v, hv, rfl⟩ := h
  exact Gives.truth (.of_operands (by simp [eval, hv.ran_eq]) (w.plain rfl) nofun
    (by simpa [Expr.operands, Expr.parts] using ⟨v, hv⟩))

theorem Truth.of_not (h : Truth w (.not e) b s) : Truth w e (!b) s := by
  obtain ⟨v, hv, rfl⟩ := h
  have hran := hv.ran_eq
  simp only [eval, ran_bind] at hran
  rcases he : ran (eval w.env e) s with ⟨_ | u, t⟩
  · simp [he] at hran
  · rw [he] at hran
    cases hran
    have hsplit : (Expr.not e).operands = [] ++ e :: [] := rfl
    exact ⟨u, ⟨he, fun x u h => hv.admitted x u (.operand hsplit rfl h)⟩, by simp [truthy]⟩

theorem ran_eval_ne (env : Env) (a b : Expr) (s : State) :
    ran (eval env (.binary .ne a b)) s =
      follow (fun v t => (.ok (.bool !truthy v), t)) (ran (eval env (.binary .eq a b)) s) := by
  simp only [eval, ran_bind]
  rcases ran (eval env a) s with ⟨_ | x, t⟩
  · rfl
  · simp only [follow_ok, ran_bind]
    rcases ran (eval env b) t with ⟨_ | y, u⟩
    · rfl
    · rfl

theorem Gives.of_binary {op' : BinaryOp} {b : Expr} {v' : Json} (h : Gives w (.binary op a b) v s)
    (hv : ran (eval w.env (.binary op' a b)) s = (.ok v', s)) : Gives w (.binary op' a b) v' s := by
  refine ⟨hv, fun x u hx => ?_⟩
  cases hx with
  | here => exact w.plain rfl
  | operand hsplit hbefore hx => exact h.admitted x u (.operand hsplit hbefore hx)

theorem Truth.negate (h : Truth w e b s) : Truth w e.negate (!b) s := by
  unfold Expr.negate
  split
  · obtain ⟨v, hv, rfl⟩ := h
    cases hv.ran_eq
    exact (gives_lit _).truth
  · exact h.of_not
  · obtain ⟨v, hv, rfl⟩ := h
    exact Gives.truth (hv.of_binary (by rw [ran_eval_ne, hv.ran_eq, follow_ok]))
  · rename_i x y
    obtain ⟨v, hv, rfl⟩ := h
    have hran := hv.ran_eq
    rw [ran_eval_ne] at hran
    rcases he : ran (eval w.env (.binary .eq x y)) s with ⟨_ | u, t⟩
    · simp [he] at hran
    · rw [he] at hran
      cases hran
      exact ⟨u, hv.of_binary he, by simp [truthy]⟩
  · exact truth_not h

def Unfolded : Expr → Prop
  | .binary _ _ _ => True
  | .typeIs _ _ => True
  | _ => False

section

variable (h : List.Forall₂ (fun e b => Truth w e b s) items bs)

include h

theorem evalJoint_of_truth (k : Bool) :
    ran (evalJoint w.env k items) s = (.ok (if k then bs.all id else bs.any id), s) := by
  induction h with
  | nil => cases k <;> rfl
  | @cons e b _ _ he _ ih =>
    obtain ⟨v, hv, rfl⟩ := he
    rw [evalJoint_cons, ran_bind, test, ran_bind, hv.ran_eq, follow_ok]
    cases k <;> cases truthy v <;> simp_all

theorem exists_gives_of_truth : ∀ p ∈ items, ∃ v, Gives w p v s := by
  intro p hp
  obtain ⟨b, v, hv, -⟩ := exists_of_forall₂ h p hp
  exact ⟨v, hv⟩

end

theorem eq_of_left {k : Bool} {o : Option (List Expr)} (hl : Expr.Left k items o)
    (h : ∀ e ∈ items, Unfolded e) : o = some items := by
  induction hl with
  | nil => rfl
  | drop _ _ | stop => exact (h _ List.mem_cons_self).elim
  | splice _ _ _ => cases k <;> exact (h _ List.mem_cons_self).elim
  | keep e _ ih => simp [ih fun p hp => h p (by simp [hp])]

theorem truth_folded (hu : ∀ e ∈ items, Unfolded e)
    (h : List.Forall₂ (fun e b => Truth w e b s) items bs) (k : Bool) :
    Truth w (.folded k items) (if k then bs.all id else bs.any id) s := by
  obtain ⟨o, hl, heq⟩ := Expr.exists_left k items
  rw [heq, eq_of_left hl hu]
  have hrun := evalJoint_of_truth h k
  rcases items with _ | ⟨e, _ | ⟨e', items⟩⟩
  · cases h
    cases k <;> exact (gives_lit _).truth
  · obtain ⟨b, _, hb, ⟨⟩, rfl⟩ := List.forall₂_cons_left_iff.1 h
    show Truth w e _ s
    cases k <;> simpa using hb
  · cases k <;> exact Gives.truth (.of_operands (by simp [Expr.rejoined, Expr.joint, eval, hrun])
      (w.plain rfl) (fun _ _ h => by cases h) (exists_gives_of_truth h))

/-! ### Calls -/

/-- What a call runs, and where it looks. -/
structure Call where
  run : List Json → Exec Json
  looks : List Json → State → Expr → State → Prop

def Watch.call (w : Watch) (n : Name) : Call := ⟨callName w.env n, w.inside n⟩

def Watch.invoke (w : Watch) (f : FunctionDef) : Call :=
  ⟨Machine.invoke w.env f, fun args s =>
    Reaches w.env w.inside f.body { s with locals := Assoc.ofList (bindParams f.params args) }⟩

/-- A call has a value of `post` and leaves the state alone where a description has an outcome, and
stops early where it has none. -/
def Replies (terms : Terms) (c : Call) (args : List Json) (s : State) (o : Option β)
    (post : β → Json → Prop) : Prop :=
  (∀ x u, c.looks args s x u → terms.admits x u) ∧
    match o with
    | some y => ∃ v, post y v ∧ ran (c.run args) s = (.ok v, s)
    | none => ∃ e t, ran (c.run args) s = (.error e, t) ∧ terms.stops e

theorem ran_eval_call (h : List.Forall₂ (fun e v => Gives w e v s) args values) :
    ran (eval w.env (.callName n args)) s = ran (callName w.env n values) s := by
  simp [Expr.callName, eval, ran_bind, evalItems_of_gives h]

theorem admitted_call (h : List.Forall₂ (fun e v => Gives w e v s) args values)
    (he : w.admits (.callName n args) s) (hinside : ∀ x u, w.inside n values s x u → w.admits x u) :
    ∀ x u, Looks w.env w.inside (.callName n args) s x u → w.admits x u := by
  refine admitted_of_operands he (exists_of_forall₂ h) ?_
  rintro _ _ _ x u ⟨⟩ hvalues hx
  rw [evalItems_of_gives h] at hvalues
  cases hvalues
  exact hinside x u hx

/-- A name stands for a primitive routine, which looks at nothing. -/
structure Watch.Routine (w : Watch) (n : Name) (routine : Primitive) : Prop where
  function : w.env.program.function? n = none
  value : w.env.program.value? n = some (.primitive routine)
  inside : ∀ values s x u, ¬ w.inside n values s x u

theorem ran_callName_routine (h : w.Routine n routine) (values : List Json) (s : State) :
    ran (callName w.env n values) s = ((routine.call values).mapError .thrown, s) := by
  simp only [callName, h.function, h.value]
  cases routine.call values <;> rfl

theorem gives_routine (h : w.Routine n routine)
    (hargs : List.Forall₂ (fun e v => Gives w e v s) args values) (hv : routine.call values = .ok v)
    (he : w.admits (.callName n args) s) : Gives w (.callName n args) v s := by
  refine ⟨?_, admitted_call hargs he fun x u hx => absurd hx (h.inside _ _ _ _)⟩
  rw [ran_eval_call hargs, ran_callName_routine h, hv]
  rfl

/-! ## Statements -/

def Watch.Safe (w : Watch) (code : List Stmt) (s : State) : Prop :=
  ∀ x u, Reaches w.env w.inside code s x u → w.admits x u

/-- A run of code ends as a description says: in a flow and a state of `post` where it has an outcome,
and early where it has none. -/
structure Yields (w : Watch) (code : List Stmt) (s : State) (o : Option β)
    (post : β → Flow → State → Prop) : Prop where
  safe : w.Safe code s
  ends : match o with
    | some x => ∃ flow t, ran (execBlock w.env code) s = (.ok flow, t) ∧ post x flow t
    | none => ∃ e t, ran (execBlock w.env code) s = (.error e, t) ∧ w.stops e

/-- Code ends normally in a state of `post` where the description has an outcome, and early where it
has none. -/
abbrev Runs (w : Watch) (code : List Stmt) (s : State) (o : Option β) (post : β → State → Prop) :
    Prop :=
  Yields w code s o fun x flow t => flow = .normal ∧ post x t

theorem Yields.conclude {post : β → Flow → State → Prop} (h : Yields w code s o post)
    (hk : ∀ x flow t, o = some x → post x flow t → ∃ y, k x = some y ∧ post' y flow t) :
    Yields w code s (o.bind k) post' := by
  refine ⟨h.safe, ?_⟩
  have hends := h.ends
  cases o with
  | none => exact hends
  | some x =>
    obtain ⟨flow, t, hr, hpost⟩ := hends
    obtain ⟨y, hy, hpost'⟩ := hk x flow t rfl hpost
    rw [Option.bind_some, hy]
    exact ⟨flow, t, hr, hpost'⟩

theorem Yields.mono {post post' : β → Flow → State → Prop} (h : Yields w code s o post)
    (hp : ∀ x flow t, o = some x → post x flow t → post' x flow t) : Yields w code s o post' := by
  have hsame := h.conclude fun x flow t ho hx => ⟨x, rfl, hp x flow t ho hx⟩
  rwa [Option.bind_fun_some] at hsame

theorem Yields.append {mid : β → Flow → State → Prop} (h : Yields w first s o mid)
    (hk : ∀ x flow t, o = some x → mid x flow t →
      (flow = .normal ∧ Yields w second t (k x) post') ∨
        (flow ≠ .normal ∧ ∃ y, k x = some y ∧ post' y flow t)) :
    Yields w (first ++ second) s (o.bind k) post' := by
  have hends := h.ends
  cases o with
  | none =>
    obtain ⟨e, t, hr, hstops⟩ := hends
    refine ⟨fun x u hx => ?_, e, t, by rw [ran_execBlock_append, hr]; rfl, hstops⟩
    rcases reaches_append.1 hx with hx | ⟨t', hrun, -⟩
    · exact h.safe x u hx
    · rw [hr] at hrun
      cases hrun
  | some x =>
    obtain ⟨flow, t, hr, hmid⟩ := hends
    rcases hk x flow t rfl hmid with ⟨rfl, hsecond⟩ | ⟨hflow, y, hy, hpost⟩
    · refine ⟨fun x u hx => ?_, by rw [ran_execBlock_append, hr]; exact hsecond.ends⟩
      rcases reaches_append.1 hx with hx | ⟨t', hrun, hx⟩
      · exact h.safe x u hx
      · rw [hr] at hrun
        cases hrun
        exact hsecond.safe x u hx
    · rw [Option.bind_some, hy]
      refine ⟨fun x u hx => ?_, flow, t, ?_, hpost⟩
      · rcases reaches_append.1 hx with hx | ⟨t', hrun, -⟩
        · exact h.safe x u hx
        · rw [hr] at hrun
          cases hrun
          exact absurd rfl hflow
      · rw [ran_execBlock_append, hr]
        cases flow with
        | normal => exact absurd rfl hflow
        | _ => rfl

theorem Runs.append (h : Runs w first s o post)
    (hk : ∀ x t, o = some x → post x t → Yields w second t (k x) post') :
    Yields w (first ++ second) s (o.bind k) post' :=
  Yields.append h fun x _ t ho hx => .inl ⟨hx.1, hk x t ho hx.2⟩

theorem yields_nil {post : β → Flow → State → Prop} (h : post x .normal s) :
    Yields w [] s (some x) post :=
  ⟨fun _ _ hx => (nomatch hx), .normal, s, rfl, h⟩

theorem safe_cons (hexprs : ∀ e ∈ st.exprs, ∃ v, Gives w e v s)
    (hblock : ∀ body t, Enters w.env st s body t → w.Safe body t)
    (hnext : ∀ t, ran (exec w.env st) s = (.ok .normal, t) → w.Safe rest t) :
    w.Safe (st :: rest) s := by
  intro x u hx
  cases hx with
  | @look _ _ e _ _ _ _ _ _ _ hsplit hbefore hx =>
    rw [hsplit] at hexprs
    obtain rfl := state_of_evalItems (fun q hq => hexprs q (by simp [hq])) hbefore
    obtain ⟨v, he⟩ := hexprs e (by simp)
    exact he.admitted x u hx
  | block hst hx => exact hblock _ _ hst x u hx
  | next hst hx => exact hnext _ hst x u hx

/-- A statement does nothing but set a variable. -/
structure Sets (w : Watch) (st : Stmt) (n : Name) (v : Json) (s : State) : Prop where
  ran_eq : ran (exec w.env st) s = (.ok .normal, s.put n v)
  blocks_eq : st.blocks = []
  exprs : ∀ e ∈ st.exprs, ∃ v, Gives w e v s

theorem Sets.yields {post : β → Flow → State → Prop} (h : Sets w st n v s)
    (hrest : Yields w rest (s.put n v) o post) : Yields w (st :: rest) s o post where
  safe := safe_cons h.exprs (fun _ _ hst => absurd hst.mem_blocks (by simp [h.blocks_eq]))
    fun u hu => by
      rw [h.ran_eq] at hu
      cases hu
      exact hrest.safe
  ends := by simpa [execBlock, ran_bind, h.ran_eq] using hrest.ends

theorem sets_declare (he : Gives w e v s) : Sets w (.declare n (some e) constant) n v s :=
  ⟨by simp [ran_declare, he.ran_eq, State.put], rfl, by simpa [Stmt.exprs] using ⟨v, he⟩⟩

theorem sets_assign (he : Gives w e v s) : Sets w (.assign n e) n v s :=
  ⟨by simp [exec, ran_bind, he.ran_eq, State.put], rfl, by simpa [Stmt.exprs] using ⟨v, he⟩⟩

theorem sets_setIndex {k : String} {members : List (String × Json)}
    (hn : s.get? n = some (.object members)) (hk : Gives w key (.string k) s) (he : Gives w e v s) :
    Sets w (.setIndex n key e) n (.object (Assoc.insert k v members)) s := by
  have hn' : Assoc.get? n s.locals = some _ := hn
  exact ⟨by simp [exec, getLocal, ran_bind, hk.ran_eq, he.ran_eq, hn', withIndex, State.put], rfl,
    by simpa [Stmt.exprs] using ⟨⟨_, hk⟩, ⟨v, he⟩⟩⟩

theorem sets_push {items : List Json} (hn : s.get? n = some (.array items)) (he : Gives w e v s) :
    Sets w (.push n e) n (.array (items ++ [v])) s := by
  have hn' : Assoc.get? n s.locals = some _ := hn
  exact ⟨by simp [exec, getLocal, ran_bind, he.ran_eq, hn', State.put], rfl,
    by simpa [Stmt.exprs] using ⟨v, he⟩⟩

theorem yields_declare_none {err : Abort} {post : β → Flow → State → Prop}
    (he : ran (eval w.env e) s = (.error err, t)) (hstops : w.stops err)
    (hlooks : ∀ x u, Looks w.env w.inside e s x u → w.admits x u) :
    Yields w (.declare n (some e) constant :: rest) s none post := by
  have hran : ran (exec w.env (.declare n (some e) constant)) s = (.error err, t) := by
    simp [ran_declare, he]
  refine ⟨fun x u hx => ?_, err, t, by rw [ran_execBlock_cons, hran]; rfl, hstops⟩
  cases hx with
  | look hsplit hbefore hx =>
    obtain ⟨rfl, rfl, -⟩ : _ = [] ∧ _ = e ∧ _ = [] := by
      simpa [Stmt.exprs, List.singleton_eq_append_iff] using hsplit
    cases hbefore
    exact hlooks x u hx
  | block hst => exact absurd hst.mem_blocks (by simp [Stmt.blocks])
  | next hst =>
    rw [hran] at hst
    cases hst

theorem yields_throw {post : β → Flow → State → Prop} (he : Gives w e v s) (hv : w.stops (.thrown v)) :
    Yields w (.throw e :: rest) s none post := by
  have hran : ran (exec w.env (.throw e)) s = (.error (.thrown v), s) := by
    simp [exec, ran_bind, he.ran_eq]
  refine ⟨safe_cons (by simpa [Stmt.exprs] using ⟨v, he⟩)
    (fun _ _ hst => absurd hst.mem_blocks (by simp [Stmt.blocks])) fun t ht => ?_,
    .thrown v, s, by rw [ran_execBlock_cons, hran]; rfl, hv⟩
  rw [hran] at ht
  cases ht

theorem yields_leave {post : β → Flow → State → Prop} (h : post x .leave s) :
    Yields w (.leave :: rest) s (some x) post := by
  refine ⟨safe_cons (by simp [Stmt.exprs])
    (fun _ _ hst => absurd hst.mem_blocks (by simp [Stmt.blocks])) fun t ht => ?_,
    .leave, s, by simp [execBlock, exec], h⟩
  cases ht

theorem yields_return {post : β → Flow → State → Prop} (he : Gives w e v s)
    (h : post x (.return v) s) : Yields w [.return e] s (some x) post := by
  refine ⟨safe_cons (by simpa [Stmt.exprs] using ⟨v, he⟩)
    (fun _ _ hst => absurd hst.mem_blocks (by simp [Stmt.blocks])) fun t _ _ _ hx => (nomatch hx),
    .return v, s, by simp [exec, he.ran_eq], h⟩

theorem yields_branch_cons {yes no : List Stmt} {post : β → Flow → State → Prop} (hc : Truth w c b s)
    (h : Yields w ((if b then yes else no) ++ rest) s o post) :
    Yields w (.branch c yes no :: rest) s o post := by
  obtain ⟨v, hv, rfl⟩ := hc
  have hran : ran (exec w.env (.branch c yes no)) s =
      ran (execBlock w.env (if truthy v then yes else no)) s := by
    rw [ran_branch, hv.ran_eq, follow_ok]
    split <;> rfl
  have hblock : ran (execBlock w.env (.branch c yes no :: rest)) s =
      ran (execBlock w.env ((if truthy v then yes else no) ++ rest)) s := by
    rw [ran_execBlock_append, ran_execBlock_cons, hran]
  refine ⟨safe_cons (by simpa [Stmt.exprs] using ⟨v, hv⟩) (fun body t hst => ?_) (fun t ht => ?_),
    hblock ▸ h.ends⟩
  · cases hst with
    | branch hc =>
      rw [hv.ran_eq] at hc
      cases hc
      exact fun x u hx => h.safe x u (reaches_append.2 (.inl hx))
    | other _ hbranch => exact absurd rfl (hbranch c yes no)
  · rw [hran] at ht
    exact fun x u hx => h.safe x u (reaches_append.2 (.inr ⟨t, ht, hx⟩))

/-- A function gives what its body returns, and leaves the variables of the caller alone. -/
theorem replies_invoke {f : FunctionDef} {args : List Json} {post : β → Json → Prop}
    (h : Yields w f.body { s with locals := Assoc.ofList (bindParams f.params args) } o
      fun x flow t => ∃ v, flow = .return v ∧ t.errors = s.errors ∧ post x v) :
    Replies w.toTerms (w.invoke f) args s o post := by
  refine ⟨h.safe, ?_⟩
  have hends := h.ends
  cases o with
  | none =>
    obtain ⟨e, t, hr, hstops⟩ := hends
    exact ⟨e, { t with locals := s.locals }, by simp [Watch.invoke, invoke, ran_bind, hr], hstops⟩
  | some x =>
    obtain ⟨_, t, hr, v, rfl, herrors, hpost⟩ := hends
    have hs : { t with locals := s.locals } = s := by rw [herrors]
    exact ⟨v, hpost, by simp [Watch.invoke, invoke, ran_bind, hr, hs]⟩

/-! ### Loops -/

/-- Goes on with a step as long as it says so; none when there is no end within the rounds. -/
def again (step : β → Option (β × Bool)) : Nat → β → Option β
  | 0, _ => none
  | rounds + 1, x =>
    (step x).bind fun (y, more) => if more then again step rounds y else some y

def flowOf (more : Bool) : Flow := if more then .normal else .leave

/-- A loop whose rounds keep an invariant ends as they do, before there are too many of them: a round
that goes on leaves less to do. -/
theorem runs_loop {body : List Stmt} {step : β → Option (β × Bool)} {inv : β → State → Prop}
    (size : β → Nat) (hbody : ∀ x t, inv x t → Yields w body t (step x) fun y flow u =>
      flow = flowOf y.2 ∧ inv y.1 u ∧ (y.2 = true → size y.1 < size x))
    (h : inv x s) (hsize : size x < w.env.rounds) :
    Runs w [.loop body] s (again step w.env.rounds x) inv := by
  constructor
  · refine safe_cons (by simp [Stmt.exprs]) (fun _ t hst => ?_) fun _ _ _ _ hx => (nomatch hx)
    cases hst with
    | other _ _ hloop => exact absurd rfl (hloop body)
    | loop hrounds =>
      -- the body is begun only in states of the invariant
      have hinv : ∃ y, inv y t := by
        induction hrounds with
        | refl => exact ⟨x, h⟩
        | @tail u t _ hround ih =>
          obtain ⟨y, hy⟩ := ih
          have hends := (hbody y u hy).ends
          cases hs : step y with
          | none =>
            rw [hs] at hends
            obtain ⟨e, t', hr, -⟩ := hends
            rw [hround] at hr
            cases hr
          | some z =>
            rw [hs] at hends
            obtain ⟨flow, t', hr, -, hz, -⟩ := hends
            rw [hround] at hr
            cases hr
            exact ⟨z.1, hz⟩
      obtain ⟨y, hy⟩ := hinv
      exact (hbody y t hy).safe
  · have hrounds : ∀ rounds x t, inv x t → size x < rounds →
        match again step rounds x with
        | some y => ∃ flow u, ran (loopOn (execBlock w.env body) rounds) t = (.ok flow, u) ∧
            flow = .normal ∧ inv y u
        | none => ∃ e u, ran (loopOn (execBlock w.env body) rounds) t = (.error e, u) ∧ w.stops e := by
      intro rounds
      induction rounds with
      | zero => exact fun x t _ hx => absurd hx (Nat.not_lt_zero _)
      | succ rounds ih =>
        intro x t hx hless
        have hround := (hbody x t hx).ends
        simp only [loopOn, ran_bind, again]
        cases hs : step x with
        | none =>
          rw [hs] at hround
          obtain ⟨e, u, hr, hstops⟩ := hround
          exact ⟨e, u, by rw [hr]; rfl, hstops⟩
        | some y =>
          obtain ⟨y, more⟩ := y
          rw [hs] at hround
          obtain ⟨flow, u, hr, rfl, hy, hmore⟩ := hround
          rw [hr]
          cases more with
          | true => exact ih y u hy (Nat.lt_of_lt_of_le (hmore rfl) (Nat.le_of_lt_succ hless))
          | false => exact ⟨.normal, u, rfl, rfl, hy⟩
    have hloop := hrounds w.env.rounds x s h hsize
    rw [ran_execBlock_singleton]
    exact hloop

end SchemaCompiler.Machine
