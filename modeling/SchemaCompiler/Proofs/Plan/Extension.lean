import SchemaCompiler.Proofs.Machine.Lifts
import SchemaCompiler.Proofs.Plan.Blueprint

/-!
# Plans in larger programs

What a plan finds in a program, it finds in a larger one as well: with more values, with more
functions, and with more room for nested calls.
-/
namespace SchemaCompiler

open Machine

/-- Whatever comes to something in one setting comes to the same in another. -/
structure Setting.Lifts (w w' : Setting) : Prop where
  values : Sub w.values w'.values
  call : ∀ callee args errors, w.call callee args = .ok errors → w'.call callee args = .ok errors

/-- If the first computation comes to something, the second one comes to the same. -/
def Below {α : Type} (x y : Except Abort α) : Prop := ∀ ⦃a⦄, x = .ok a → y = .ok a

namespace Below

variable {α β : Type} {x y : Except Abort α}

theorem refl (x : Except Abort α) : Below x x := fun _ => id

theorem bind (h : Below x y) {f g : α → Except Abort β} (hf : ∀ a, Below (f a) (g a)) :
    Below (x >>= f) (y >>= g) := by
  intro b hb
  obtain ⟨a, ha, hb⟩ := bind_eq_ok.1 hb
  exact bind_eq_ok.2 ⟨a, h ha, hf a hb⟩

theorem map (h : Below x y) (f : α → β) : Below (x.map f) (y.map f) := by
  intro b hb
  obtain ⟨a, ha, rfl⟩ := map_eq_ok.1 hb
  exact map_eq_ok.2 ⟨a, h ha, rfl⟩

theorem andThen (f : Finding) {next next' : Locals → Except Abort Finding}
    (h : ∀ ρ, Below (next ρ) (next' ρ)) : Below (f.andThen next) (f.andThen next') := by
  unfold Finding.andThen
  split
  · exact (h _).map _
  · exact refl _

theorem rounds {var : Name} {body body' : Locals → Except Abort Finding}
    (h : ∀ ρ, Below (body ρ) (body' ρ)) :
    ∀ (vs : List Json) (ρ : Locals), Below (rounds var body vs ρ) (rounds var body' vs ρ)
  | [], _ => refl _
  | v :: vs, ρ => (h _).bind fun f => by
    cases f.exit with
    | onward => exact (rounds h vs f.locals).map _
    | _ => exact refl _

end Below

namespace Setting.Lifts

variable {w w' : Setting} {ρ : Locals} {e : Expr}

variable (h : w.Lifts w')

include h

theorem eval : Below (w.eval ρ e) (w'.eval ρ e) := by
  intro v hv
  have hlift := lifts_eval h.values e ⟨[], ρ⟩
  unfold Setting.eval evalIn at hv ⊢
  rcases hr : ran (Machine.eval (silentEnv w.values) e) ⟨[], ρ⟩ with ⟨a | u, s⟩ <;> rw [hr] at hv
  · cases hv
  · rw [hr] at hlift
    rw [hlift, hv]

theorem evalItems {items : List Expr} : Below (w.evalItems ρ items) (w'.evalItems ρ items) := by
  intro vs hv
  have hlift := lifts_evalItems h.values items ⟨[], ρ⟩
  unfold Setting.evalItems at hv ⊢
  rcases hr : ran (Machine.evalItems (silentEnv w.values) items) ⟨[], ρ⟩ with ⟨a | u, s⟩ <;>
    rw [hr] at hv
  · cases hv
  · rw [hr] at hlift
    rw [hlift, hv]

theorem quietly {R : Name → Prop} {stmts : List Stmt}
    (hq : Stmt.QuietBlock R stmts) : Below (w.quietly stmts ρ) (w'.quietly stmts ρ) := by
  intro f hf
  have hlift := lifts_execBlock h.values stmts hq ⟨[], ρ⟩
  unfold Setting.quietly at hf ⊢
  rcases hr : ran (execBlock (silentEnv w.values) stmts) ⟨[], ρ⟩ with ⟨a | flow, s⟩ <;> rw [hr] at hf
  · cases hf
  · rw [hr] at hlift
    rw [hlift]
    exact hf

theorem test : Below (w.test ρ e) (w'.test ρ e) := h.eval.map _

theorem index : Below (w.index ρ e) (w'.index ρ e) := h.eval.bind fun _ => .refl _

theorem report (m : Mode) (breaks : Bool) :
    Below (w.report m e breaks ρ) (w'.report m e breaks ρ) := h.eval.map _

theorem traversal (along : Traversal) : Below (along.values w ρ) (along.values w' ρ) := by
  cases along with
  | range start stop => exact h.index.bind fun _ => h.index.bind fun _ => .refl _
  | keys object | items object => exact h.eval.map _

theorem enter (t : Trial) : Below (t.enter w ρ) (t.enter w' ρ) := by
  unfold Trial.enter
  split
  · exact .refl _
  · exact h.eval.bind fun _ => .refl _

theorem settlement (m : Mode) (f : Finding) (s : Settlement) :
    Below (s.meaning w m f) (s.meaning w' m f) := by
  cases s with
  | drop => exact .refl _
  | dropIf condition record =>
    refine h.test.bind fun b => ?_
    split
    · exact .refl _
    · exact (h.report m false).map _
  | dropUnless condition record =>
    refine h.test.bind fun b => ?_
    split
    · exact (h.report m false).map _
    · exact .refl _

end Setting.Lifts

theorem Plan.meaning_below {w w' : Setting} (h : w.Lifts w') {callable : Name → Bool → Prop}
    {p : Plan} {Γ : Context} (hp : p.Fits callable Γ) (m : Mode) (ρ : Locals) :
    Below (p.meaning w m ρ) (p.meaning w' m ρ) := by
  induction p generalizing Γ m ρ with
  | nothing => exact .refl _
  | report record breaks => exact h.report m breaks
  | seq first second ihf ihs => exact (ihf hp.1 m ρ).bind fun f => .andThen f (ihs hp.2 m)
  | quiet stmts => exact h.quietly hp.1
  | branch condition yes no ihy ihn =>
    refine h.test.bind fun b => ?_
    split
    · exact ihy hp.2.1 m ρ
    · exact ihn hp.2.2 m ρ
  | demand condition record rest ih =>
    refine h.test.bind fun b => ?_
    split
    · refine (h.report m false).bind fun f => ?_
      split
      · exact .andThen f (ih hp.2.2.1 m)
      · exact .refl _
    · exact ih hp.2.2.1 m ρ
  | typed pinned test body ih =>
    simp only [meaning]
    split
    · exact ih hp.2.2 m ρ
    · refine h.test.bind fun b => ?_
      split
      · exact ih hp.2.2 m ρ
      · exact .refl _
  | next before first second ihf ihs =>
    refine (ihf hp.2.1 m ρ).bind fun f => .andThen f fun ρ => ?_
    split
    · exact ihs hp.2.2.1 m ρ
    · exact .refl _
  | trial t body ih =>
    exact (h.enter t).bind fun ρ => (ih hp.2.2.2.1 _ ρ).bind fun _ => .refl _
  | settle before body settlement ih =>
    refine (ih hp.2.1 _ ρ).bind fun f => ?_
    cases f.exit with
    | onward => exact h.settlement m f settlement
    | _ => exact .refl _
  | loop var along body ih =>
    exact (h.traversal along).bind fun vs => .rounds (ih hp.2.2 m) vs ρ
  | leave => exact .refl _
  | call invocation callee args =>
    exact h.evalItems.bind fun vs => Below.bind (h.call _ _) fun _ => .refl _
  | schema s body ih => exact ih hp.1 m ρ
  | raw stmts => exact hp.elim

/-! ## Parts of blueprints -/

namespace Blueprint

/-- What a blueprint has, another one has as well. -/
structure Part (b whole : Blueprint) : Prop where
  checkers : ∀ n c, b.checker? n = some c → whole.checker? n = some c
  values : ∀ n v, b.value? n = some v → whole.value? n = some v

namespace Part

variable {b whole : Blueprint}

theorem callable (h : b.Part whole) {n : Name} {isAsync : Bool}
    (hn : whole.Callable n isAsync) : b.Callable n isAsync where
  not_function := by
    cases hc : b.checker? n with
    | none => rfl
    | some c =>
      have hwhole := h.checkers n c hc
      rw [hn.not_function] at hwhole
      cases hwhole
  leads := by
    cases hv : b.value? n with
    | none => exact .inl rfl
    | some v =>
      have hwhole := h.values n v hv
      rcases hn.leads with hnone | ⟨target, hsome, hasync⟩
      · rw [hnone] at hwhole
        cases hwhole
      · rw [hsome] at hwhole
        cases hwhole
        exact .inr ⟨target, rfl, fun c hc => hasync c (h.checkers target c hc)⟩

theorem sound (h : b.Part whole) (hs : whole.Sound) : b.Sound where
  inert := fun n f hn hv => hs.inert n f hn (h.values n _ hv)
  routine := fun n hn => by
    cases hc : b.checker? n with
    | none => rfl
    | some c =>
      have hwhole := h.checkers n c hc
      rw [hs.routine n hn] at hwhole
      cases hwhole
  fits := fun n c hc => by
    obtain ⟨hplan, hstays, hfresh, hcomposes⟩ := hs.fits n c (h.checkers n c hc)
    exact ⟨hplan.mono fun _ _ => h.callable, hstays, hfresh, hcomposes⟩

theorem lifts (h : b.Part whole) {all : Bool} {left left' : Nat}
    (hf : ∀ n args errors, b.findings all left n args = .ok errors →
      whole.findings all left' n args = .ok errors) :
    (b.setting all left).Lifts (whole.setting all left') where
  values := h.values
  call := by
    intro callee args errors hc
    simp only [setting, calls] at hc ⊢
    cases hv : b.value? callee with
    | none =>
      rw [hv] at hc
      cases hc
    | some v =>
      rw [hv] at hc
      rw [h.values callee v hv]
      cases v with
      | function target => exact hf target args errors hc
      | _ => cases hc

/-- What the functions of a part find, those of the whole find as well, with at least as much room
for nested calls. -/
theorem findings (h : b.Part whole) (hs : whole.Sound) {all : Bool} {left left' : Nat}
    (hle : left ≤ left') {n : Name} {args errors : List Json}
    (hf : b.findings all left n args = .ok errors) :
    whole.findings all left' n args = .ok errors := by
  induction left generalizing left' n args errors with
  | zero =>
    simp only [Blueprint.findings] at hf
    split at hf <;> cases hf
  | succ left ih =>
    obtain ⟨left', rfl⟩ : ∃ k, left' = k + 1 := ⟨left' - 1, by omega⟩
    simp only [Blueprint.findings] at hf ⊢
    cases hc : b.checker? n with
    | none =>
      rw [hc] at hf
      cases hf
    | some c =>
      have hwhole := h.checkers n c hc
      rw [hc] at hf
      rw [hwhole]
      obtain ⟨f, hplan, rfl⟩ := map_eq_ok.1 hf
      have hlifts : (b.setting all left).Lifts _ :=
        h.lifts fun n args errors => ih (Nat.le_of_succ_le_succ hle)
      exact map_eq_ok.2 ⟨f, Plan.meaning_below hlifts (hs.fits n c hwhole).plan _ _ hplan, rfl⟩

end Part
end Blueprint

end SchemaCompiler
