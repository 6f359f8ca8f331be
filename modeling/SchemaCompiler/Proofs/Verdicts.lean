import SchemaCompiler.Proofs.Compiler.Linking

/-!
# Verdicts and errors

A validator finds data valid exactly when it finds no errors. Behind this stands what holds of every
function that is called and of every schema that is tried in place: the error records that were
there stay in front, and the verdict says whether there are more.
-/
namespace SchemaCompiler

open Machine

variable {Γ : Context} {w : Setting} {s : State} {r : Validation}

/-! ## Calls -/

/-- A call that has come to a verdict: it has returned, or thrown that validation failed. -/
def Machine.Concluded : Except Abort Json → Prop
  | .ok _ => True
  | .error (.thrown v) => Validator.isVerdict v = true
  | .error (.fault _) => False

/-- The verdict of a call is that the data is valid: an asynchronous function returns, any other
returns `true`. -/
def Machine.Accepted (isAsync : Bool) : Except Abort Json → Prop
  | .ok v => isAsync = true ∨ v = .bool true
  | .error _ => False

theorem Machine.Abort.Plain.not_concluded {a : Abort} (h : a.Plain) : ¬ Concluded (.error a) := by
  cases a with
  | fault e => exact id
  | thrown v =>
    intro hv
    have hnone : v.get? "validation" = none := h
    simp [Concluded, Validator.isVerdict, hnone] at hv

namespace Answers

variable {isAsync : Bool} {s : State} {r : Except Abort (List Json)}
  {out : Except Abort Json × State}

theorem stay (h : Answers isAsync s r out) : s.errors <+: out.2.errors := by
  cases h with
  | full r stay | stops r stay => exact stay
  | verdict _ _ | thrown _ _ _ => exact List.prefix_append _ _
  | returned async v => exact List.prefix_refl _

theorem errors_of_concluded (h : Answers isAsync s r out) (hc : Concluded out.1) :
    ∃ errors, r = .ok errors ∧ out.2.errors = s.errors ++ errors ∧
      (Accepted isAsync out.1 ↔ errors = []) := by
  cases h with
  | full r stay => exact hc.elim
  | stops plain stay => exact absurd hc plain.not_concluded
  | @verdict errors sync room =>
    simp [Accepted, sync]
  | returned async v => exact ⟨[], rfl, by simp, by simp [Accepted, async]⟩
  | @thrown errors async found room => exact ⟨errors, rfl, rfl, by simp [Accepted, found]⟩

theorem accepted_iff (h : Answers isAsync s r out) (hc : Concluded out.1) :
    Accepted isAsync out.1 ↔ out.2.errors = s.errors := by
  obtain ⟨errors, -, herrors, hiff⟩ := h.errors_of_concluded hc
  rw [hiff, herrors]
  simp

end Answers

/-! ## Schemas in place -/

namespace Plan

/-- The schemas that a plan tries in place, those in other ones included: how each is tried, and its
plan. -/
def trials : Plan → List (Trial × Plan)
  | trial t body => (t, body) :: body.trials
  | seq first second => first.trials ++ second.trials
  | branch _ yes no => yes.trials ++ no.trials
  | demand _ _ rest => rest.trials
  | typed _ _ body => body.trials
  | next _ first second => first.trials ++ second.trials
  | settle _ body _ => body.trials
  | loop _ _ body => body.trials
  | schema _ body => body.trials
  | _ => []

variable {callable : Name → Bool → Prop} {t : Trial} {body : Plan}

theorem Fits.trials {p : Plan} (h : p.Fits callable Γ) (hq : (t, body) ∈ p.trials) :
    ∃ Γ', (trial t body).Fits callable Γ' := by
  induction p generalizing Γ with
  | seq first second ihf ihs =>
    exact (List.mem_append.1 hq).elim (ihf h.1) (ihs h.2)
  | branch condition yes no ihy ihn =>
    exact (List.mem_append.1 hq).elim (ihy h.2.1) (ihn h.2.2)
  | demand condition record rest ih => exact ih h.2.2.1 hq
  | typed pinned test body ih | loop pinned test body ih => exact ih h.2.2 hq
  | next before first second ihf ihs =>
    exact (List.mem_append.1 hq).elim (ihf h.2.1) (ihs h.2.2.1)
  | trial t' body' ih =>
    rcases List.mem_cons.1 hq with heq | hq
    · cases heq
      exact ⟨Γ, h⟩
    · exact ih h.2.2.2.1 hq
  | settle before body settlement ih => exact ih h.2.1 hq
  | schema s body ih => exact ih h.1 hq
  | _ => cases hq

theorem get?_valid_of_meaning {m : Mode} {ρ : Locals} {f : Finding}
    (h : (trial t body).meaning w m ρ = .ok f) (hx : f.exit = .onward) :
    Assoc.get? t.valid f.locals = some (.bool f.errors.isEmpty) := by
  obtain ⟨inner, -, h⟩ := bind_eq_ok.1 h
  obtain ⟨g, -, h⟩ := bind_eq_ok.1 h
  cases h
  cases hg : g.exit <;> simp only [Trial.conclude, hg] at hx ⊢
  · exact Assoc.get?_insert_self _ _ _
  all_goals cases hx

/-- A schema that is tried in place leaves the error records in front that were there, and names by
its verdict whether there are more. -/
theorem trial_steady {env : Env} (he : env.Holds w.values) (hcall : w.Answered env callable)
    (h : (trial t body).Fits callable Γ) (m : Mode) (hs : s.errors.length ≤ recordLimit) :
    let out := ran (execBlock env ((trial t body).code m)) s
    s.errors <+: out.2.errors ∧ (out.1 = .ok .normal →
      Assoc.get? t.valid out.2.locals = some (.bool (decide (out.2.errors = s.errors)))) := by
  have hloose : (trial t body).Fits callable Γ.loose := by
    refine ⟨h.1, h.2.1, fun d hd => ?_, h.2.2.2⟩
    obtain ⟨⟨hfresh, hbase, hsolid, hkey⟩, hne⟩ := h.2.2.1 d hd
    exact ⟨⟨hfresh, hbase, hsolid, hkey⟩, hne⟩
  have hcarries := (trial t body).carries he hcall hloose (Agree.refl _ s.locals) hs
    (Γ.unmoved_loose m s.errors s.locals)
  generalize hr : (trial t body).meaning w m s.locals = r at hcarries
  dsimp only
  generalize hout : ran (execBlock env _) ⟨s.errors, s.locals⟩ = out
    at hcarries
  cases hcarries with
  | full r stay | stops r stay => exact ⟨stay, fun h => by cases h⟩
  | @onward errors ρ l' room agree kept =>
    rw [agree t.valid (.inr (by simp [declared])), get?_valid_of_meaning hr rfl]
    cases errors <;> simp
  | loop room agree kept => exact ⟨List.prefix_append _ _, fun h => by cases h⟩
  | function room =>
    refine ⟨List.prefix_append _ _, fun h => ?_⟩
    cases hm : m.isAsync <;> simp [Mode.left, hm] at h

end Plan

/-! ## Validators -/

namespace Validator

variable {v : Validator}

def conclude (isAsync : Bool) : Except Abort Json × State → Except RuntimeError Validation
  | (.ok value, s) => (readErrors s.errors).map fun errors => ⟨isAsync || value.isBool true, errors⟩
  | (.error (.thrown value), s) =>
    if isVerdict value then (readErrors s.errors).map fun errors => ⟨false, errors⟩
    else .error (.uncaught value)
  | (.error (.fault e), _) => .error e

/-- How the entry function ends on data. -/
def outcome (v : Validator) (data : Json) : Except Abort Json × State :=
  ran (callFunction v.program roundLimit v.program.maxDepth v.entry [data, .string "", data]) ⟨[], []⟩

theorem validate_eq (v : Validator) (data : Json) :
    v.validate data = conclude v.isAsync (v.outcome data) := by
  have hrun : run v.program v.entry [data, .string "", data] =
      match v.outcome data with
      | (.ok v, s) => .ok ⟨.ok v, s.errors⟩
      | (.error (.thrown v), s) => .ok ⟨.error v, s.errors⟩
      | (.error (.fault e), _) => .error e := rfl
  unfold validate
  rw [hrun]
  rcases v.outcome data with ⟨(value | e) | value, s⟩
  · cases isVerdict value with
    | true => cases readErrors s.errors <;> rfl
    | false => rfl
  · rfl
  · cases readErrors s.errors <;> rfl

theorem conclude_eq_ok {isAsync : Bool} {out : Except Abort Json × State}
    (h : conclude isAsync out = .ok r) :
    Concluded out.1 ∧ readErrors out.2.errors = .ok r.errors ∧
      (r.valid = true ↔ Accepted isAsync out.1) := by
  rcases out with ⟨(value | e) | value, s⟩
  · simp only [conclude] at h
    split at h
    · rename_i hverdict
      obtain ⟨errors, herrors, rfl⟩ := map_eq_ok.1 h
      exact ⟨hverdict, herrors, by simp [Accepted]⟩
    · cases h
  · cases h
  · obtain ⟨errors, herrors, rfl⟩ := map_eq_ok.1 h
    refine ⟨trivial, herrors, ?_⟩
    cases value <;> simp [Accepted, Json.isBool]

theorem readErrors_eq_ok {records : List Json} {errors : List ValidationError}
    (h : readErrors records = .ok errors) : errors.length = records.length := by
  induction records generalizing errors with
  | nil =>
    cases h
    rfl
  | cons record rest ih =>
    unfold readErrors at h
    split at h
    · cases h
    · obtain ⟨es, hes, h⟩ := bind_eq_ok.1 h
      cases h
      simp [ih hes]

end Validator

namespace Compiler.Made

variable {o : Options} {c : Compiler} {v : Validator} {b : Blueprint} (h : c.Made o v b)

include h

theorem entry_answers (rounds left : Nat) (args : List Json)
    (hs : s.errors.length ≤ recordLimit) :
    Answers v.isAsync s (b.findings o.allErrors left v.entry args)
      (ran (callFunction v.program rounds left v.entry args) s) := by
  rw [h.program]
  cases hentry : b.checker? v.entry with
  | none => exact Blueprint.answers_none _ rounds left hentry v.isAsync args s
  | some checker =>
    rw [← h.isAsync_entry hentry]
    exact h.sound.answers o.allErrors rounds left hentry args hs

theorem maxDepth_program : v.program.maxDepth = o.maxDepth := by
  rw [h.program]
  exact h.maxDepth

theorem answers_outcome (data : Json) : Answers v.isAsync ⟨[], []⟩
    (b.findings o.allErrors o.maxDepth v.entry [data, .string "", data]) (v.outcome data) := by
  rw [← h.maxDepth_program]
  exact h.entry_answers roundLimit _ _ (Nat.zero_le _)

theorem valid_iff {data : Json} (hr : v.validate data = .ok r) :
    r.valid = true ↔ r.errors = [] := by
  rw [Validator.validate_eq] at hr
  obtain ⟨hconcluded, herrors, hvalid⟩ := Validator.conclude_eq_ok hr
  have hempty : (v.outcome data).2.errors = [] ↔ r.errors = [] := by
    rw [← List.length_eq_zero_iff, ← List.length_eq_zero_iff, Validator.readErrors_eq_ok herrors]
  rw [hvalid, ← hempty]
  exact (h.answers_outcome data).accepted_iff hconcluded

/-- A function leaves the error records in front that were there, and its verdict says whether there
are more. -/
theorem function_steady {name : Name} {f : FunctionDef}
    (hf : v.program.function? name = some f) (rounds left : Nat) (args : List Json)
    (hs : s.errors.length ≤ recordLimit) :
    let out := ran (callFunction v.program rounds left name args) s
    s.errors <+: out.2.errors ∧
      (Concluded out.1 → (Accepted f.isAsync out.1 ↔ out.2.errors = s.errors)) := by
  rw [h.program] at hf ⊢
  rw [Blueprint.function?_program, Option.map_eq_some_iff] at hf
  obtain ⟨checker, hchecker, rfl⟩ := hf
  have hanswers := h.sound.answers o.allErrors rounds left hchecker args hs
  exact ⟨hanswers.stay, hanswers.accepted_iff⟩

theorem trial_steady {checker : Checker}
    (hc : checker ∈ c.session.checkers.map Prod.snd) {t : Trial} {body : Plan}
    (ht : (t, body) ∈ checker.plan.trials) (m : Mode) (rounds left : Nat)
    (hs : s.errors.length ≤ recordLimit) :
    let out := ran (execBlock ⟨v.program, callFunction v.program rounds left, rounds⟩
      ((Plan.trial t body).code m)) s
    s.errors <+: out.2.errors ∧ (out.1 = .ok .normal →
      Assoc.get? t.valid out.2.locals = some (.bool (decide (out.2.errors = s.errors)))) := by
  obtain ⟨⟨name, _⟩, hmem, rfl⟩ := List.mem_map.1 hc
  have hchecker := (Assoc.get?_eq_some_iff h.healthy.coherent.checkers_nodup).2 hmem
  obtain ⟨Γ, hΓ⟩ := (h.healthy.sound_whole.fits name _ hchecker).plan.trials ht
  rw [h.program]
  have hanswered := Blueprint.answered fun name c' hc' args s hs =>
    h.sound.answers o.allErrors rounds left hc' args hs
  exact Plan.trial_steady (h.sound.holds _ _ _) hanswered
    (hΓ.mono fun _ _ => h.part.callable) m hs

end Compiler.Made

/-- Verdicts and errors are consistent, in every validator and in all that it calls and tries. -/
theorem Validator.verdict_iff_errors (options : Options) {requests : List Compiler.Request}
    {request : Compiler.Request} (hrequests : ∀ r ∈ requests, r.Plain) (hrequest : request.Plain)
    {v : Validator} {c : Compiler}
    (hv : (Compiler.after options requests).serve request = (some v, c)) :
    (∀ data r, v.validate data = .ok r → (r.valid = true ↔ r.errors = [])) ∧
    (∀ name f, v.program.function? name = some f →
      ∀ rounds left args (s : State), s.errors.length ≤ recordLimit →
        let out := ran (callFunction v.program rounds left name args) s
        s.errors <+: out.2.errors ∧
          (Concluded out.1 → (Accepted f.isAsync out.1 ↔ out.2.errors = s.errors))) ∧
    ∀ checker ∈ c.session.checkers.map Prod.snd, ∀ t body, (t, body) ∈ checker.plan.trials →
      ∀ m rounds left (s : State), s.errors.length ≤ recordLimit →
        let out := ran (execBlock ⟨v.program, callFunction v.program rounds left, rounds⟩
          ((Plan.trial t body).code m)) s
        s.errors <+: out.2.errors ∧ (out.1 = .ok .normal →
          Assoc.get? t.valid out.2.locals = some (.bool (decide (out.2.errors = s.errors)))) := by
  obtain ⟨b, hmade⟩ := Compiler.made_of_serve hrequests hrequest hv
  refine ⟨fun data r => hmade.valid_iff, fun name f hf rounds left args s => ?_,
    fun checker hchecker t body ht m rounds left s => ?_⟩
  · exact hmade.function_steady hf rounds left args
  · exact hmade.trial_steady hchecker ht m rounds left

/-- An asynchronous schema with a keyword that has been defined by a test, on data that is not
valid. -/
theorem Validator.verdict_iff_errors_of_async :
    ∃ v c r, (Compiler.after Options.standard [.keyword (.plain "plain" (.test (fun value data =>
          value.isBool true && data.isString) none))]).serve
        (.schema (.object [("$async", .bool true), ("not", .object [("plain", .bool true)])])) =
          (some v, c) ∧
      v.validate (.string "a") = .ok r ∧ r.errors.length = 1 ∧ (r.valid = true ↔ r.errors = []) := by
  obtain ⟨v, c, hc, htest⟩ := Compiler.exists_of_any ((Compiler.after Options.standard
    [.keyword (.plain "plain" (.test (fun value data => value.isBool true && data.isString)
      none))]).serve (.schema (.object [("$async", .bool true),
        ("not", .object [("plain", .bool true)])]))) (fun v _ =>
          (v.validate (.string "a")).toOption.any fun r => r.errors.length == 1) (by decide +kernel)
            fun _ _ _ => id
  cases hr : v.validate (.string "a") with
  | error e => simp [hr, Except.toOption] at htest
  | ok r =>
    refine ⟨v, c, r, hc, hr, by simpa [hr, Except.toOption] using htest, ?_⟩
    exact (verdict_iff_errors Options.standard (by simp [Compiler.Request.Plain,
      KeywordDefinition.plain]) (by trivial) hc).1 _ r hr

end SchemaCompiler
