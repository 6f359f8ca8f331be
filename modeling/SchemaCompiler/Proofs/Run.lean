/-!
# Running computations

The machine and the making of plans are computations that keep a state and can stop early. `ran` is
what such a computation gives from a state, and the lemmas here say what that is for each of the
constructs that computations are put together from, so that no proof has to look inside the monad.
-/
namespace SchemaCompiler

variable {ε σ α β : Type}

/-! ## Results -/

theorem bind_eq_ok {x : Except ε α} {f : α → Except ε β} {b : β} :
    x >>= f = .ok b ↔ ∃ a, x = .ok a ∧ f a = .ok b := by
  cases x <;> simp [bind, Except.bind]

theorem map_eq_ok {x : Except ε α} {f : α → β} {b : β} :
    x.map f = .ok b ↔ ∃ a, x = .ok a ∧ f a = b := by
  cases x <;> simp [Except.map]

/-! ## Runs -/

def ran (x : ExceptT ε (StateM σ) α) (s : σ) : Except ε α × σ := ExceptT.run x s

def follow (k : α → σ → Except ε β × σ) : Except ε α × σ → Except ε β × σ
  | (.ok a, s) => k a s
  | (.error e, s) => (.error e, s)

variable (k : α → σ → Except ε β × σ)

@[simp] theorem follow_ok (a : α) (s : σ) :
    follow k (.ok a, s) = k a s := rfl

@[simp] theorem follow_error (e : ε) (s : σ) :
    follow k (.error e, s) = (.error e, s) := rfl

@[simp] theorem ran_pure (a : α) (s : σ) :
    ran (pure a : ExceptT ε (StateM σ) α) s = (.ok a, s) := rfl

theorem ran_bind (x : ExceptT ε (StateM σ) α) (f : α → ExceptT ε (StateM σ) β) (s : σ) :
    ran (x >>= f) s = follow (fun a => ran (f a)) (ran x s) := by
  simp only [ran, ExceptT.run_bind]
  simp only [bind, StateT.bind]
  rcases h : ExceptT.run x s with ⟨_ | _, _⟩ <;> rfl

@[simp] theorem ran_throw (e : ε) (s : σ) :
    ran (throw e : ExceptT ε (StateM σ) α) s = (.error e, s) := rfl

@[simp] theorem ran_get (s : σ) : ran (get : ExceptT ε (StateM σ) σ) s = (.ok s, s) := rfl

@[simp] theorem ran_set (s t : σ) :
    ran (set t : ExceptT ε (StateM σ) PUnit) s = (.ok ⟨⟩, t) := rfl

@[simp] theorem ran_modify (f : σ → σ) (s : σ) :
    ran (modify f : ExceptT ε (StateM σ) PUnit) s = (.ok ⟨⟩, f s) := rfl

@[simp] theorem ran_modifyGet (f : σ → α × σ) (s : σ) :
    ran (modifyGet f : ExceptT ε (StateM σ) α) s = (.ok (f s).1, (f s).2) := rfl

@[simp] theorem ran_map (g : α → β) (x : ExceptT ε (StateM σ) α) (s : σ) :
    ran (g <$> x) s = follow (fun a t => (.ok (g a), t)) (ran x s) := by
  rw [map_eq_pure_bind, ran_bind]
  rfl

end SchemaCompiler
