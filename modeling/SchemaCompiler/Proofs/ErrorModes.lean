import SchemaCompiler.Proofs.Compiler.Modes
import SchemaCompiler.Proofs.Plan.Modes
import SchemaCompiler.Proofs.Verdicts

/-!
# Validators that stop and validators that go on

Of two validators that are made alike, but for how errors are treated, the one that stops finds some
of the errors of the other, in the same order, and finds data valid exactly when the other does.
Where no schema weighs the errors of others, it finds the first error of the other and no more.
-/
namespace SchemaCompiler

open Machine

namespace Plan

variable {all few : List Json} {errors more : List ValidationError}

theorem weighs_eq_false {callable : Name → Bool → Prop} {p : Plan} {Γ : Context}
    (hp : p.Fits callable Γ) (hc : p.composes = false) (hs : ∀ s ∈ p.schemas, s.composes = false) :
    p.weighs = false := by
  induction p generalizing Γ with
  | seq first second ihf ihs =>
    simp only [composes, Bool.or_eq_false_iff] at hc
    simp only [schemas, List.mem_append] at hs
    simp [weighs, ihf hp.1 hc.1 fun s h => hs s (.inl h), ihs hp.2 hc.2 fun s h => hs s (.inr h)]
  | branch condition yes no ihy ihn =>
    simp only [composes, Bool.or_eq_false_iff] at hc
    simp only [schemas, List.mem_append] at hs
    simp [weighs, ihy hp.2.1 hc.1 fun s h => hs s (.inl h),
      ihn hp.2.2 hc.2 fun s h => hs s (.inr h)]
  | demand condition record rest ih => exact ih hp.2.2.1 hc hs
  | typed pinned test body ih | loop pinned test body ih => exact ih hp.2.2 hc hs
  | next before first second ihf ihs =>
    simp only [composes, Bool.or_eq_false_iff] at hc
    simp only [schemas, List.mem_append] at hs
    simp [weighs, ihf hp.2.1 hc.1 fun s h => hs s (.inl h),
      ihs hp.2.2.1 hc.2 fun s h => hs s (.inr h)]
  | trial t body ih =>
    simp only [composes, Bool.or_eq_false_iff] at hc
    simp [weighs, hc.1, ih hp.2.2.2.1 hc.2 hs]
  | settle before body settlement ih => cases hc
  | schema s body ih =>
    refine ih hp.1 ?_ fun s' h => hs s' (List.mem_cons_of_mem s h)
    by_contra hbody
    have hkeyword := hp.2 (by simpa using hbody)
    rw [hs s (List.mem_cons_self ..)] at hkeyword
    cases hkeyword
  | _ => rfl

end Plan

/-! ## Functions -/

namespace Blueprint

variable {b whole : Blueprint}

/-- What a function of a part finds where the first error may end the search, beside what it finds
in the whole where all are collected. -/
theorem Part.abridges (h : b.Part whole) (hs : whole.Sound) {lone : Prop}
    (hl : lone → ∀ n c, b.checker? n = some c → c.plan.weighs = false) {left left' : Nat} {n : Name}
    {args : List Json} (hf : b.findings false left n args = .ok few)
    (hF : whole.findings true left' n args = .ok all) : Abridges lone few all := by
  induction left generalizing left' n args few all with
  | zero =>
    simp only [Blueprint.findings] at hf
    split at hf <;> cases hf
  | succ left ih =>
    cases left' with
    | zero =>
      simp only [Blueprint.findings] at hF
      split at hF <;> cases hF
    | succ left' =>
      simp only [Blueprint.findings] at hf hF
      cases hc : b.checker? n with
      | none =>
        rw [hc] at hf
        cases hf
      | some c =>
        have hwhole := h.checkers n c hc
        rw [hc] at hf
        rw [hwhole] at hF
        obtain ⟨f, hplan, rfl⟩ := map_eq_ok.1 hf
        obtain ⟨F, hPLAN, rfl⟩ := map_eq_ok.1 hF
        have hfits := hs.fits n c hwhole
        -- the values of the whole, and the calls of the part
        let w : Setting := ⟨whole.values, b.calls (b.findings false left)⟩
        have hlifts : (b.setting false left).Lifts w := ⟨h.values, fun _ _ _ => id⟩
        have hlifted := Plan.meaning_below hlifts hfits.plan _ _ hplan
        have hcalls : w.Abridges lone (whole.setting true left') := by
          refine ⟨rfl, hs.inert, fun callee args few all hfew hall => ?_⟩
          simp only [w, setting, calls] at hfew hall
          cases hv : b.value? callee with
          | none =>
            rw [hv] at hfew
            cases hfew
          | some v =>
            rw [hv] at hfew
            rw [h.values callee v hv] at hall
            cases v with
            | function target => exact ih hfew hall
            | _ => cases hfew
        exact (Plan.abridges hcalls hfits.plan rfl rfl (fun hlone => ⟨rfl, hl hlone n c hc⟩)
          (Agree.refl _ _) (fun _ hk => hk.elim) hlifted hPLAN).errors

end Blueprint

/-! ## Validators -/

namespace Validator

theorem readErrors_cons_eq_ok {record : Json} {rest : List Json} :
    readErrors (record :: rest) = .ok errors ↔
      ∃ e es, ValidationError.decode .value (Json.Draft.ofJson record) = .ok e ∧
        readErrors rest = .ok es ∧ errors = e :: es := by
  rw [readErrors]
  cases ValidationError.decode .value _ with
  | error failure => simp
  | ok e =>
    simp only [bind_eq_ok, Except.ok.injEq]
    constructor
    · rintro ⟨es, hes, h⟩
      cases h
      exact ⟨e, es, rfl, hes, rfl⟩
    · rintro ⟨_, es, rfl, hes, rfl⟩
      exact ⟨es, hes, rfl⟩

theorem readErrors_sublist (h : few.Sublist all) (hfew : readErrors few = .ok errors)
    (hall : readErrors all = .ok more) : errors.Sublist more := by
  induction h generalizing errors more with
  | slnil =>
    cases hfew
    exact List.nil_sublist _
  | cons record _ ih =>
    obtain ⟨e, es, -, hes, rfl⟩ := readErrors_cons_eq_ok.1 hall
    exact (ih hfew hes).cons e
  | cons_cons record _ ih =>
    obtain ⟨e, es, he, hes, rfl⟩ := readErrors_cons_eq_ok.1 hall
    obtain ⟨e', es', he', hes', rfl⟩ := readErrors_cons_eq_ok.1 hfew
    rw [he] at he'
    cases he'
    exact (ih hes' hes).cons_cons e

theorem readErrors_take
    (hfew : readErrors (all.take 1) = .ok errors) (hall : readErrors all = .ok more) :
    errors = more.take 1 := by
  cases all with
  | nil =>
    cases hfew
    cases hall
    rfl
  | cons record rest =>
    obtain ⟨e, es, he, -, rfl⟩ := readErrors_cons_eq_ok.1 hall
    obtain ⟨e', es', he', hes', rfl⟩ := readErrors_cons_eq_ok.1 hfew
    rw [he] at he'
    cases he'
    cases hes'
    rfl

end Validator

theorem Compiler.Made.findings_of_validate {o : Options} {c : Compiler} {v : Validator}
    {b : Blueprint} (h : c.Made o v b) {data : Json} {r : Validation}
    (hr : v.validate data = .ok r) :
    ∃ errors, b.findings o.allErrors o.maxDepth v.entry [data, .string "", data] = .ok errors ∧
      Validator.readErrors errors = .ok r.errors := by
  rw [Validator.validate_eq] at hr
  obtain ⟨hconcluded, herrors, -⟩ := Validator.conclude_eq_ok hr
  obtain ⟨errors, hfound, hout, -⟩ := (h.answers_outcome data).errors_of_concluded hconcluded
  refine ⟨errors, hfound, ?_⟩
  rw [hout] at herrors
  simpa using herrors

/-- Two validators that are made alike, one that stops at errors and one that collects them. -/
theorem Validator.modes_agree (o : Options) {requests : List Compiler.Request}
    {request : Compiler.Request} (hrequests : ∀ r ∈ requests, r.Plain) (hrequest : request.Plain)
    {stopping collecting : Validator} {c C : Compiler}
    (hv : (Compiler.after { o with allErrors := false } requests).serve request = (some stopping, c))
    (hV : (Compiler.after { o with allErrors := true } requests).serve request =
      (some collecting, C)) {data : Json} {few all : Validation}
    (hfew : stopping.validate data = .ok few) (hall : collecting.validate data = .ok all) :
    few.valid = all.valid ∧ few.errors.Sublist all.errors ∧
      ((∀ e ∈ c.session.checkers, (stopping.program.function? e.1).isSome →
          ∀ s ∈ e.2.plan.schemas, s.composes = false) →
        few.errors.length ≤ 1 ∧ few.errors = all.errors.take 1) := by
  have hafter : Compiler.after { o with allErrors := true } requests =
      (Compiler.after { o with allErrors := false } requests).collecting true :=
    Compiler.after_collecting true { o with allErrors := false } hrequests
  have hserve := Compiler.serve_collecting true
    (Compiler.healthy_after { o with allErrors := false } hrequests) request
  rw [← hafter, hv, hV] at hserve
  obtain ⟨rfl, hentry⟩ := hserve
  obtain ⟨hentry, -⟩ := hentry stopping collecting rfl rfl
  obtain ⟨b, hmade⟩ := Compiler.made_of_serve hrequests hrequest hv
  obtain ⟨B, hMADE⟩ := Compiler.made_of_serve hrequests hrequest hV
  obtain ⟨records, hrecords, hread⟩ := hmade.findings_of_validate hfew
  obtain ⟨RECORDS, hRECORDS, hREAD⟩ := hMADE.findings_of_validate hall
  have hsound := hmade.healthy.sound_whole
  have hwhole : c.whole.findings true o.maxDepth stopping.entry [data, .string "", data] =
      .ok RECORDS := by
    rw [hentry] at hRECORDS
    exact hMADE.part.findings hsound (Nat.le_refl _) hRECORDS
  have habridges : Abridges (∀ n checker, b.checker? n = some checker →
      checker.plan.weighs = false) records RECORDS :=
    hmade.part.abridges hsound (fun hl n c hc => hl n c hc) hrecords hwhole
  have hsublist := Validator.readErrors_sublist habridges.sublist hread hREAD
  refine ⟨?_, hsublist, fun hschemas => ?_⟩
  · have hnil : few.errors = [] ↔ all.errors = [] := by
      rw [← List.length_eq_zero_iff, ← List.length_eq_zero_iff, Validator.readErrors_eq_ok hread,
        Validator.readErrors_eq_ok hREAD, List.length_eq_zero_iff, List.length_eq_zero_iff]
      exact ⟨habridges.nil, fun h => List.sublist_nil.1 (h ▸ habridges.sublist)⟩
    rw [Bool.eq_iff_iff, hmade.valid_iff hfew, hMADE.valid_iff hall, hnil]
  · have hlone : ∀ n checker, b.checker? n = some checker → checker.plan.weighs = false := by
      intro n checker hn
      have hfits := hmade.sound.fits n checker hn
      refine Plan.weighs_eq_false hfits.plan hfits.composes (hschemas (n, checker) ?_ ?_)
      · exact Assoc.mem_of_get?_eq_some (hmade.part.checkers n checker hn)
      · rw [hmade.program, Blueprint.function?_program, hn]
        rfl
    have hfirst := habridges.first hlone
    rw [hfirst] at hread
    have htake := Validator.readErrors_take hread hREAD
    exact ⟨by rw [htake, List.length_take]; exact Nat.min_le_left _ _, htake⟩

/-- A schema that refers to itself, on data that lacks two members. -/
theorem Validator.modes_agree_of_required :
    ∃ stopping collecting c C few all,
      (Compiler.after { Options.standard with allErrors := false } []).serve (.schema (.object
        [("properties", .object [("next", .object [("$ref", .string "#")])]),
          ("required", .array [.string "a", .string "b"])])) = (some stopping, c) ∧
      (Compiler.after { Options.standard with allErrors := true } []).serve (.schema (.object
        [("properties", .object [("next", .object [("$ref", .string "#")])]),
          ("required", .array [.string "a", .string "b"])])) = (some collecting, C) ∧
      stopping.validate (.object []) = .ok few ∧ collecting.validate (.object []) = .ok all ∧
      all.errors.length = 2 ∧ few.valid = all.valid ∧ few.errors.Sublist all.errors ∧
      few.errors = all.errors.take 1 := by
  let request : Compiler.Request := .schema (.object [("properties", .object [("next", .object
    [("$ref", .string "#")])]), ("required", .array [.string "a", .string "b"])])
  obtain ⟨v, c, hc, htest⟩ := Compiler.exists_of_any
    ((Compiler.after { Options.standard with allErrors := false } []).serve request) (fun v c => (v.validate (.object [])).toOption.isSome &&
      c.session.checkers.all fun e => e.2.plan.schemas.all fun s => !s.composes) (by decide +kernel)
    fun _ _ _ => id
  obtain ⟨V, C, hC, hTEST⟩ := Compiler.exists_of_any
    ((Compiler.after { Options.standard with allErrors := true } []).serve request) (fun V _ => (V.validate (.object [])).toOption.any fun r => r.errors.length == 2)
    (by decide +kernel) fun _ _ _ => id
  rw [Bool.and_eq_true] at htest
  cases hfew : v.validate (.object []) with
  | error e => simp [hfew, Except.toOption] at htest
  | ok few =>
    cases hall : V.validate (.object []) with
    | error e => simp [hall, Except.toOption] at hTEST
    | ok all =>
      obtain ⟨hvalid, hsublist, hfirst⟩ := modes_agree Options.standard (by simp) (by trivial) hc hC
        hfew hall
      have hschemas : ∀ e ∈ c.session.checkers, ∀ s ∈ e.2.plan.schemas, s.composes = false := by
        simpa using htest.2
      exact ⟨v, V, c, C, few, all, hc, hC, hfew, hall, by simpa [hall, Except.toOption] using hTEST,
        hvalid, hsublist, (hfirst fun e he _ => hschemas e he).2⟩

end SchemaCompiler
