import Mathlib.Data.List.Perm.Subperm
import Mathlib.Logic.Relation
import SchemaCompiler.Proofs.Plan.Depth
import SchemaCompiler.Proofs.Verdicts

/-!
# How deep calls nest

Every call of a validating function is on the data of the caller or on less. Where no function leads
back to itself by calls on the same data, the calls that a validation nests are bounded: by the
number of schemas that have functions of their own, once for each level of the data. Where one does,
there is no bound: a reference that leads back on the same data is left out only while the schema it
leads to is being compiled on the way of such references.
-/
namespace SchemaCompiler

open Machine Relation

namespace Blueprint

variable (b : Blueprint) {f g : Name} {left : Nat} {data : Json}

def Direct (f g : Name) : Prop :=
  ∃ c, b.checker? f = some c ∧ ∃ callee ∈ c.plan.directCallees, b.value? callee = some (.function g)

def Acyclic : Prop := ∀ f, ¬ TransGen b.Direct f f

/-- The functions that a function leads to by calls on the same data. -/
noncomputable def reached (f : Name) : List Name :=
  open Classical in (b.checkers.map Prod.fst).filter fun g => TransGen b.Direct f g

/-- How many functions can be on the way from a function on the same data, itself included. -/
noncomputable def level (f : Name) : Nat := (b.reached f).length + 1

variable {b}

theorem mem_reached : g ∈ b.reached f ↔ g ∈ b.checkers.map Prod.fst ∧ TransGen b.Direct f g := by
  simp [reached]

theorem level_le (h : b.Acyclic) (hf : f ∈ b.checkers.map Prod.fst) :
    b.level f ≤ b.checkers.length := by
  have hlt : (b.reached f).length < (b.checkers.map Prod.fst).length := by
    refine List.length_filter_lt_length_iff_exists.2 ⟨f, hf, ?_⟩
    simpa using h f
  rw [List.length_map] at hlt
  exact hlt

theorem level_lt (h : b.Acyclic) (hn : (b.checkers.map Prod.fst).Nodup)
    (hd : b.Direct f g) (hg : g ∈ b.checkers.map Prod.fst) : b.level g < b.level f := by
  have hself : g ∉ b.reached g := fun hmem => h g (mem_reached.1 hmem).2
  have hnodup : (g :: b.reached g).Nodup := List.nodup_cons.2 ⟨hself, hn.filter _⟩
  have hsub : g :: b.reached g ⊆ b.reached f := by
    intro k hk
    rcases List.mem_cons.1 hk with rfl | hk
    · exact mem_reached.2 ⟨hg, .single hd⟩
    · exact mem_reached.2 ⟨(mem_reached.1 hk).1, .head hd (mem_reached.1 hk).2⟩
  exact Nat.succ_lt_succ (hnodup.subperm hsub).length_le

theorem sized_start (before : Name) (v : Json) (rest : List Json) :
    (Context.root before).Sized v (start (v :: rest)) where
  sets := fun _ hn => hn.elim
  kept := by
    rintro n (rfl | hn)
    · exact ⟨.inl (by simp [Checker.parameters]), id⟩
    · exact hn.elim
  known := fun _ hn => hn.elim
  data := get?_dataName_start (v :: rest)
  below := fun _ hn => hn.elim
  solid := fun _ hn => hn.elim

theorem shallow_calls {all : Bool} {callee : Name} {args : List Json}
    (h : ∀ g ∈ b.checkers.map Prod.fst, b.value? callee = some (.function g) →
      Shallow (b.findings all left g args)) : Shallow (b.calls (b.findings all left) callee args) := by
  have hfault : ∀ e : RuntimeError, ¬ (Abort.fault e).IsDeep →
      Shallow (.error (.fault e) : Except Abort (List Json)) :=
    fun e he a ha => by cases ha; exact he
  unfold calls
  split
  · rename_i g hg
    by_cases hmem : g ∈ b.checkers.map Prod.fst
    · exact h g hmem hg
    · have hnone : b.checker? g = none := Assoc.get?_eq_none_iff.2 hmem
      cases left <;> simp only [findings, hnone] <;> exact hfault _ id
  · exact hfault _ id

/-- A function has room enough for nested calls where there is room for as many functions as there
are, once for each step that can be taken into the data, and for those that are still to come on the
same data. -/
theorem shallow_findings (hs : b.Sound) (ha : b.Acyclic) (hn : (b.checkers.map Prod.fst).Nodup)
    (all : Bool) {v : Json} (rest : List Json)
    (hroom : b.checkers.length * v.rank + b.level f ≤ left) :
    Shallow (b.findings all left f (v :: rest)) := by
  induction left generalizing f v rest with
  | zero => simp [level] at hroom
  | succ left ih =>
    simp only [findings]
    cases hc : b.checker? f with
    | none => exact fun a ha => by cases ha; exact id
    | some c =>
      have hfits := hs.fits f c hc
      refine Shallow.map ?_ _
      refine Plan.shallow_meaning hs.inert (fun callee hcallee rest => ?_)
        (fun callee u rest hlt => ?_) hfits.plan (sized_start c.before v rest) _
      · refine shallow_calls fun g hg hcalled => ih rest ?_
        have hlt := level_lt ha hn ⟨c, hc, callee, hcallee, hcalled⟩ hg
        omega
      · refine shallow_calls fun g hg _ => ih rest ?_
        have hlevel := level_le ha hg
        have hrank : b.checkers.length * (u.rank + 1) ≤ b.checkers.length * v.rank :=
          Nat.mul_le_mul_left _ hlt
        have hpos : 0 < b.level f := Nat.succ_pos _
        rw [Nat.mul_succ] at hrank
        omega

end Blueprint

theorem Coherent.length_checkers_le {a : Assembly Session} (h : Coherent a) :
    a.session.checkers.length ≤ a.session.targets.length := by
  let done : String × Target → Option Name := fun e =>
    match e.2.progress with
    | .done f => some f
    | _ => none
  have hsub : a.checkers.map Prod.fst ⊆ a.session.targets.filterMap done := by
    intro f hf
    obtain ⟨key, t, ht, hp⟩ := h.owned f hf
    exact List.mem_filterMap.2 ⟨(key, t), Assoc.mem_of_get?_eq_some ht, by simp [done, hp]⟩
  calc a.session.checkers.length = (a.checkers.map Prod.fst).length := by simp [Assembly.checkers]
    _ ≤ (a.session.targets.filterMap done).length := (h.checkers_nodup.subperm hsub).length_le
    _ ≤ a.session.targets.length := List.length_filterMap_le _ _

namespace Compiler

def Direct (c : Compiler) (v : Validator) (f g : Name) : Prop :=
  (v.program.function? f).isSome ∧ ∃ checker, (f, checker) ∈ c.session.checkers ∧
    ∃ callee ∈ checker.plan.directCallees, v.program.value? callee = some (.function g)

variable {o : Options} {c : Compiler} {v : Validator} {b : Blueprint}

theorem Made.acyclic (h : c.Made o v b) (ha : ∀ f, ¬ TransGen (c.Direct v) f f) : b.Acyclic := by
  have hdirect : ∀ f g, b.Direct f g → c.Direct v f g := by
    rintro f g ⟨checker, hchecker, callee, hcallee, hvalue⟩
    refine ⟨?_, checker, ?_, callee, hcallee, ?_⟩
    · rw [h.program, Blueprint.function?_program, hchecker]
      rfl
    · exact Assoc.mem_of_get?_eq_some (h.part.checkers f checker hchecker)
    · rw [h.program]
      exact hvalue
  exact fun f hf => ha f (TransGen.mono hdirect f f hf)

theorem Made.shallow_entry (h : c.Made o v b) (ha : ∀ f, ¬ TransGen (c.Direct v) f f)
    (hroom : c.session.targets.length * (data.height + 2) ≤ left) (rest : List Json) :
    Shallow (b.findings o.allErrors left v.entry (data :: rest)) := by
  have hacyclic := h.acyclic ha
  have hcount : b.checkers.length ≤ c.session.targets.length :=
    h.checkers.length_le.trans h.healthy.coherent.length_checkers_le
  have hnodup : (b.checkers.map Prod.fst).Nodup :=
    h.healthy.coherent.checkers_nodup.sublist (h.checkers.map _)
  by_cases hmem : v.entry ∈ b.checkers.map Prod.fst
  · refine Blueprint.shallow_findings h.sound hacyclic hnodup _ rest ?_
    calc b.checkers.length * data.rank + b.level v.entry
        ≤ b.checkers.length * (data.height + 1) + b.checkers.length :=
          Nat.add_le_add (Nat.mul_le_mul_left _ data.rank_le) (Blueprint.level_le hacyclic hmem)
      _ = b.checkers.length * (data.height + 2) := by ring
      _ ≤ left := (Nat.mul_le_mul_right _ hcount).trans hroom
  · have hnone : b.checker? v.entry = none := Assoc.get?_eq_none_iff.2 hmem
    cases left <;> simp only [Blueprint.findings, hnone] <;>
    exact fun a ha => by cases ha; exact id

end Compiler

theorem Answers.shallow {isAsync : Bool} {s : State} {r : Except Abort (List Json)}
    {out : Except Abort Json × State} (h : Answers isAsync s r out) (hr : Shallow r) :
    Shallow out.1 := by
  cases h with
  | full _ _ | thrown _ _ _ => exact fun a ha => by cases ha; exact id
  | stops plain stay => exact fun a ha => by cases ha; exact hr _ rfl
  | verdict sync room | returned sync room => exact .ok _

theorem Validator.validate_ne_deep {v : Validator}
    (h : Shallow (v.outcome data).1) (d : Nat) :
    v.validate data ≠ .error (.depthExceeded d) := by
  have hread : ∀ (records : List Json) (f : List ValidationError → Validation),
      (readErrors records).map f ≠ .error (.depthExceeded d) := by
    intro records f
    have hfault : ∀ e, readErrors records = .error e → e ≠ .depthExceeded d := by
      induction records with
      | nil => exact fun e he => nomatch he
      | cons record rest ih =>
        intro e he
        unfold readErrors at he
        split at he
        · cases he
          simp
        · cases hrest : readErrors rest with
          | error e' =>
            rw [hrest] at he
            cases he
            exact ih _ hrest
          | ok errors =>
            rw [hrest] at he
            cases he
    cases hr : readErrors records with
    | error e => simpa [Except.map] using hfault e hr
    | ok errors => simp [Except.map]
  rw [validate_eq]
  rcases hout : v.outcome data with ⟨(value | e) | value, s⟩ <;> rw [hout] at h
  · simp only [conclude]
    split
    · exact hread _ _
    · simp
  · intro he
    cases he
    exact h _ rfl trivial
  · exact hread _ _

/-- Where no function leads back to itself by calls on the same data, the calls that a validation
nests are no more than the schemas with functions of their own, for each level of the data and twice
more. -/
theorem Validator.depth_suffices (o : Options) {requests : List Compiler.Request}
    {request : Compiler.Request} (hrequests : ∀ r ∈ requests, r.Plain) (hrequest : request.Plain)
    {v : Validator} {c : Compiler}
    (hv : (Compiler.after o requests).serve request = (some v, c))
    (hacyclic : ∀ f, ¬ TransGen (c.Direct v) f f) (data : Json) :
    (∀ rounds left, c.session.targets.length * (data.height + 2) ≤ left →
      ∀ rest (s : State), s.errors.length ≤ recordLimit → ∀ d,
        (ran (callFunction v.program rounds left v.entry (data :: rest)) s).1 ≠
          .error (.fault (.depthExceeded d))) ∧
    (c.session.targets.length * (data.height + 2) ≤ o.maxDepth →
      ∀ d, v.validate data ≠ .error (.depthExceeded d)) := by
  obtain ⟨b, hmade⟩ := Compiler.made_of_serve hrequests hrequest hv
  have hshallow : ∀ rounds left, c.session.targets.length * (data.height + 2) ≤ left →
      ∀ rest (s : State), s.errors.length ≤ recordLimit →
        Shallow (ran (callFunction v.program rounds left v.entry (data :: rest)) s).1 :=
    fun rounds left hroom rest s hs =>
      (hmade.entry_answers rounds left _ hs).shallow (hmade.shallow_entry hacyclic hroom rest)
  refine ⟨fun rounds left hroom rest s hs d heq => hshallow rounds left hroom rest s hs _ heq trivial,
    fun hroom => validate_ne_deep (hshallow _ _ ?_ _ _ (Nat.zero_le _))⟩
  rwa [hmade.maxDepth_program]

/-- A schema of lists: it refers to itself, one step into the data. -/
theorem Validator.depth_suffices_of_list :
    ∃ v c, (Compiler.after Options.standard []).serve (.schema (.object
        [("properties", .object [("next", .object [("$ref", .string "#")])])])) = (some v, c) ∧
      (∀ f, ¬ TransGen (c.Direct v) f f) ∧ c.session.targets.length = 1 ∧
      ∀ d, v.validate (.object [("next", .object [("next", .null)])]) ≠
        .error (.depthExceeded d) := by
  refine Compiler.exists_of_any _ (fun _ c => c.session.targets.length == 1 &&
    c.session.checkers.all fun e => e.2.plan.directCallees.isEmpty) (by decide +kernel)
    fun v c hc htest => ?_
  obtain ⟨htargets, hcheckers⟩ : c.session.targets.length = 1 ∧
      ∀ e ∈ c.session.checkers, e.2.plan.directCallees = [] := by simpa using htest
  have hacyclic : ∀ f, ¬ TransGen (c.Direct v) f f := by
    intro f hf
    obtain ⟨g, -, -, checker, hchecker, callee, hcallee, -⟩ := TransGen.tail'_iff.1 hf
    rw [hcheckers _ hchecker] at hcallee
    cases hcallee
  refine ⟨hacyclic, htargets, ?_⟩
  refine (depth_suffices Options.standard (by simp) (by trivial) hc hacyclic _).2 ?_
  rw [htargets]
  decide

/-- The limit that calls have gone beyond. -/
def exceededLimit? : Except RuntimeError Validation → Option Nat
  | .error (.depthExceeded limit) => some limit
  | _ => none

theorem eq_of_exceededLimit? {r : Except RuntimeError Validation} {limit : Nat}
    (h : exceededLimit? r = some limit) : r = .error (.depthExceeded limit) := by
  unfold exceededLimit? at h
  split at h
  · cases h
    rfl
  · cases h

/-- A schema that leads back to itself on the same data, by way of one that has been compiled where
it is a step away: four nested calls do not suffice for two schemas and data of no height. -/
theorem Validator.depth_exceeded_of_cycle :
    ∃ v c, (Compiler.after { Options.standard with maxDepth := 4 } []).serve (.schema (.object
        [("allOf", .array [.object [("properties", .object
            [("x", .object [("$ref", .string "#/$defs/B")])])],
          .object [("$ref", .string "#/$defs/B")]]),
        ("$defs", .object [("B", .object [("$ref", .string "#")])])])) = (some v, c) ∧
      c.session.targets.length * ((Json.ofNat 1).height + 2) = 4 ∧
      v.validate (Json.ofNat 1) = .error (.depthExceeded 4) := by
  refine Compiler.exists_of_any _ (fun v c => c.session.targets.length == 2 &&
    exceededLimit? (v.validate (Json.ofNat 1)) == some 4) (by decide +kernel)
    fun v c hc htest => ?_
  rw [Bool.and_eq_true, beq_iff_eq, beq_iff_eq] at htest
  exact ⟨by rw [htest.1]; rfl, eq_of_exceededLimit? htest.2⟩

end SchemaCompiler
