import SchemaCompiler.Proofs.Machine.Related
import SchemaCompiler.Proofs.Machine.Run

/-!
# Counting calls

The machine passes on to each call how deep calls may still nest. Here the same code runs with a
counter in its place, which every call raises when it begins and lowers when it ends, and with a
note of each call that is made. Both come to the same, however a computation ends. So the counter is
always the number of calls under way, and a call is refused just if there is no room for it.
-/
namespace SchemaCompiler.Machine

/-- A call as it is made: how many calls are under way around it, what the counter says, whether
there is a function of the name, and whether the call is refused for being too deep. -/
structure Attempt where
  active : Nat
  depth : Nat
  known : Bool
  refused : Bool
deriving DecidableEq

/-- A state with a counter, and with the calls that have been made. -/
structure Counted where
  state : State
  depth : Nat
  attempts : List Attempt

instance : Carries Counted := ⟨Counted.state, fun s c => { c with state := s }⟩

def Counted.note (c : Counted) (active : Nat) (known refused : Bool) : Counted :=
  { c with attempts := c.attempts ++ [⟨active, c.depth, known, refused⟩] }

/-- A call from within `active` others. Whether it may begin is up to the counter; `fuel` only
bounds the recursion. -/
def countedCall (p : Program) (rounds : Nat) : Nat → Nat → Name → List Json → ExecOn Counted Json
  | 0, _, _, _ => raise (.malformed .endless)
  | fuel + 1, active, name, args => do
    match p.function? name with
    | none =>
      modify (·.note active false false)
      raise (.malformed (.noFunction name))
    | some f =>
      if p.maxDepth ≤ (← get).depth then
        modify (·.note active true true)
        raise (.depthExceeded p.maxDepth)
      else
        modify fun c => { c.note active true false with depth := c.depth + 1 }
        let r ← observe (invoke ⟨p, countedCall p rounds fuel (active + 1), rounds⟩ f args)
        modify fun c => { c with depth := c.depth - 1 }
        resume r

variable {p : Program} {rounds d : Nat} {b : Prop} {α β : Type}

/-- The counter is right, and the call is refused just if there is a function but no room for it. -/
structure Attempt.Right (p : Program) (a : Attempt) : Prop where
  depth_eq : a.depth = a.active
  depth_le : a.depth ≤ p.maxDepth
  refused_iff : a.refused = true ↔ a.known = true ∧ a.active = p.maxDepth

/-- With the counter at `d`, a computation comes to what another one comes to without it, and leaves
the counter where it was, however it ends. All calls on the way are right; and if it ends for want
of depth, one of them was refused, unless that was so before. -/
def Tracks (p : Program) (d : Nat) (b : Prop) (α : Type) (x : ExecOn Counted α) (y : Exec α) :
    Prop :=
  ∀ c : Counted, c.depth = d → ∃ made : List Attempt, (∀ a ∈ made, a.Right p) ∧
    ran x c = ((ran y c.state).1, ⟨(ran y c.state).2, d, c.attempts ++ made⟩) ∧
    (IsDeep (ran y c.state).1 → b ∨ ∃ a ∈ made, a.refused = true)

namespace Tracks

variable {x : ExecOn Counted α} {y : Exec α}

/-- What leaves the counter alone, makes no call and does not end for want of depth. -/
theorem of_ran (h : ∀ c : Counted, ran x c =
      ((ran y c.state).1, { c with state := (ran y c.state).2 }))
    (hdeep : ∀ s, IsDeep (ran y s).1 → b) : Tracks p d b α x y := by
  rintro c rfl
  exact ⟨[], by simp, by simp [h], fun hd => .inl (hdeep _ hd)⟩

theorem bind {f : α → ExecOn Counted β} {g : α → Exec β} (hx : Tracks p d b α x y)
    (hf : ∀ a, Tracks p d b β (f a) (g a)) : Tracks p d b β (x >>= f) (y >>= g) := by
  intro c hc
  obtain ⟨made, hmade, hran, hdeep⟩ := hx c hc
  rw [ran_bind, ran_bind, hran]
  rcases hy : ran y c.state with ⟨e | a, s⟩
  · rw [hy] at hdeep
    exact ⟨made, hmade, rfl, hdeep⟩
  · obtain ⟨more, hmore, hran', hdeep'⟩ := hf a ⟨s, d, c.attempts ++ made⟩ rfl
    refine ⟨made ++ more, fun a ha => (List.mem_append.1 ha).elim (hmade a) (hmore a), ?_,
      fun h => ?_⟩
    · simp [hran']
    · exact (hdeep' h).imp_right fun ⟨a, ha, h⟩ => ⟨a, List.mem_append_right _ ha, h⟩

theorem observe {f : Except Abort α → ExecOn Counted β} {g : Except Abort α → Exec β}
    (hx : Tracks p d b α x y) (hf : ∀ r, Tracks p d (b ∨ IsDeep r) β (f r) (g r)) :
    Tracks p d b β (observe x >>= f) (observe y >>= g) := by
  intro c hc
  obtain ⟨made, hmade, hran, hdeep⟩ := hx c hc
  rw [ran_bind, ran_bind, ran_observe, hran]
  obtain ⟨more, hmore, hran', hdeep'⟩ :=
    hf (ran y c.state).1 ⟨(ran y c.state).2, d, c.attempts ++ made⟩ rfl
  refine ⟨made ++ more, fun a ha => (List.mem_append.1 ha).elim (hmade a) (hmore a), ?_,
    fun h => ?_⟩
  · simp [hran']
  · rcases hdeep' h with (h | h) | ⟨a, ha, h⟩
    · exact .inl h
    · exact (hdeep h).imp_right fun ⟨a, ha, h⟩ => ⟨a, List.mem_append_left _ ha, h⟩
    · exact .inr ⟨a, List.mem_append_right _ ha, h⟩

theorem executes : Executes (Tracks p d) where
  related _ := ⟨fun _ => of_ran (fun _ => rfl) nofun,
    fun h => of_ran (fun _ => rfl) fun _ => by cases h <;> exact False.elim, bind⟩
  stop h := of_ran (fun _ => rfl) fun _ => h
  look _ := of_ran (fun _ => rfl) nofun
  update _ _ := of_ran (fun _ => rfl) nofun
  observe := observe

end Tracks

section Code

variable {env : EnvOn Counted} {env' : Env} (hp : env.program = env'.program)
  (hcall : ∀ b name args, Tracks p d b Json (env.call name args) (env'.call name args))

include hp hcall

theorem tracks_eval (b : Prop) (e : Expr) : Tracks p d b Json (eval env e) (eval env' e) :=
  (Tracks.executes.related b).eval
    ⟨fun _ _ => trivial, fun _ => Tracks.executes.readName hp _,
      fun vs _ => Tracks.executes.callName hp (hcall b) _ vs,
      fun _ => Tracks.executes.bind (Tracks.executes.look b) fun _ => Tracks.executes.pure _⟩
    trivial

theorem tracks_exec (hrounds : env.rounds = env'.rounds) (b : Prop) (st : Stmt) :
    Tracks p d b Flow (exec env st) (exec env' st) :=
  Tracks.executes.exec hrounds (fun b e _ => tracks_eval hp hcall b e) st (List.Subset.refl _) b

end Code

theorem Attempt.right (known refused : Bool) (hd : d ≤ p.maxDepth)
    (h : refused = true ↔ known = true ∧ d = p.maxDepth) :
    ∀ a ∈ [Attempt.mk d d known refused], a.Right p :=
  List.forall_mem_singleton.2 ⟨rfl, hd, h⟩

/-- A call from within `d` others, with as much room as is left. -/
theorem tracks_call (left : Nat) (hd : d + left = p.maxDepth) (b : Prop) (name : Name)
    (args : List Json) : Tracks p d b Json (countedCall p rounds (left + 1) d name args)
      (callFunction p rounds left name args) := by
  have hle : d ≤ p.maxDepth := by omega
  induction left generalizing d b name args with
  | zero =>
    rintro c rfl
    rw [countedCall, callFunction]
    cases p.function? name with
    | none => exact ⟨_, Attempt.right _ _ hle (by simp), rfl, nofun⟩
    | some f =>
      refine ⟨_, Attempt.right true _ hle (by simpa using hd), ?_,
        fun _ => .inr ⟨_, List.mem_singleton_self _, rfl⟩⟩
      simp only [ran_bind, ran_get, follow_ok, if_pos (show p.maxDepth ≤ c.depth by omega)]
      rfl
  | succ left ih =>
    rintro c rfl
    rw [countedCall, callFunction]
    cases p.function? name with
    | none => exact ⟨_, Attempt.right _ _ hle (by simp), rfl, nofun⟩
    | some f =>
      -- the body runs one level further down, where the hypothesis is about the calls that it makes
      have hbody : Tracks p _ b Json
          (invoke ⟨p, countedCall p rounds (left + 1) (c.depth + 1), rounds⟩ f args)
          (invoke ⟨p, callFunction p rounds left, rounds⟩ f args) :=
        Tracks.executes.invoke f args (Tracks.executes.execBlock fun st _ b => tracks_exec rfl
          (fun b name args => ih (by omega) b name args (by omega)) rfl b st)
      obtain ⟨made, hmade, hran, hdeep⟩ := hbody
        { c.note c.depth true false with depth := c.depth + 1 } rfl
      refine ⟨_ ++ made, fun a ha => (List.mem_append.1 ha).elim
        (Attempt.right true false hle (by simp; omega) a) (hmade a), ?_,
        fun h => (hdeep h).imp_right fun ⟨a, ha, h⟩ => ⟨a, List.mem_append_right _ ha, h⟩⟩
      simp only [ran_bind, ran_get, follow_ok, if_neg (show ¬ p.maxDepth ≤ c.depth by omega),
        ran_modify, ran_observe, hran]
      rw [← List.append_assoc]
      rfl

/-- Where `d` calls are under way, calls, expressions and statements come to what they come to with
room for the others, and the counter is at `d` again however they end. -/
theorem depth_exact (hd : d ≤ p.maxDepth) :
    let env : EnvOn Counted := ⟨p, countedCall p rounds (p.maxDepth - d + 1) d, rounds⟩
    let env' : Env := ⟨p, callFunction p rounds (p.maxDepth - d), rounds⟩
    (∀ name args, Tracks p d False Json (env.call name args) (env'.call name args)) ∧
      (∀ e, Tracks p d False Json (eval env e) (eval env' e)) ∧
      ∀ st, Tracks p d False Flow (exec env st) (exec env' st) := by
  intro env env'
  have hcall : ∀ b name args, Tracks p d b Json (env.call name args) _ :=
    tracks_call _ (by omega)
  exact ⟨hcall False, tracks_eval rfl hcall False, tracks_exec rfl hcall rfl False⟩

/-- A function that calls itself is refused its third call if two may be under way. -/
theorem depth_exact_of_recursion :
    let f : Name := ⟨"f", by decide⟩
    let p : Program := ⟨[(f, ⟨f, [], [.expr (.callName f [])], false⟩)], [], 2⟩
    0 ≤ p.maxDepth ∧ ∃ made : List Attempt, (∀ a ∈ made, a.Right p) ∧
      ran (countedCall p 0 3 0 f []) ⟨⟨[], []⟩, 0, []⟩ =
        (.error (.fault (.depthExceeded 2)), ⟨⟨[], []⟩, 0, made⟩) ∧
      ∃ a ∈ made, a.refused = true := by
  intro f p
  obtain ⟨made, hright, hran, hdeep⟩ := (depth_exact (Nat.zero_le _)).1 f []
    ⟨⟨[], []⟩, 0, []⟩ rfl
  exact ⟨Nat.zero_le _, made, hright, hran, (hdeep trivial).resolve_left id⟩

end SchemaCompiler.Machine
