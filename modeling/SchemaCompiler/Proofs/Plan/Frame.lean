import SchemaCompiler.Proofs.Machine.Block
import SchemaCompiler.Proofs.Plan.Fits

/-!
# What a plan leaves as it is

Carrying out a plan changes no variable that could be read before it, unless it is one that may be
set. So whatever is known of the data where a plan starts is still known behind it. And a plan that
does not escape never ends behind a loop around it.
-/
namespace SchemaCompiler

open Machine

variable {w : Setting} {callable : Name → Bool → Prop} {R : Name → Prop} {n : Name}
  {stmts : List Stmt} {p : Plan} {Γ : Context} {m : Mode} {ρ : Locals} {f g : Finding} {t : Trial}
  {s : Settlement}

def Context.Kept (Γ : Context) (n : Name) : Prop := Γ.reads n ∧ ¬ Γ.sets n

theorem Setting.locals_quietly (hw : Inert w.values) (hq : Stmt.QuietBlock R stmts)
    (h : w.quietly stmts ρ = .ok f) (hn : n ∉ Stmt.targetsOf stmts) :
    Assoc.get? n f.locals = Assoc.get? n ρ := by
  have hk := execBlock_keeps (silentEnv_holds hw) stmts hq
    (fun _ => id) ⟨[], ρ⟩
  unfold quietly at h
  split at h
  · rename_i s hs
    cases h
    exact by simpa [hs] using hk.2 n hn
  · rename_i s hs
    cases h
    exact by simpa [hs] using hk.2 n hn
  · cases h

theorem agree_insert_of_not {name : Name} (h : ¬ R name) (v : Json)
    (ρ : Locals) : Agree R (Assoc.insert name v ρ) ρ :=
  (Agree.refl R ρ).insert_left h v

theorem Trial.agree_enter (hd : ∀ d ∈ t.descent, ¬ Γ.reads d.name)
    {ρ ρ' : Locals} (h : t.enter w ρ = .ok ρ') : Agree Γ.reads ρ' ρ := by
  unfold enter at h
  split at h
  · cases h
    exact Agree.refl _ _
  · rename_i d hdesc
    obtain ⟨v, -, hv⟩ := bind_eq_ok.1 h
    cases hv
    exact agree_insert_of_not (hd d hdesc) v ρ

theorem agree_rounds {var : Name} (hvar : ¬ R var) {body : Locals → Except Abort Finding}
    (hbody : ∀ ρ f, body ρ = .ok f → Agree R f.locals ρ) :
    ∀ (vs : List Json) (ρ : Locals) (f : Finding), rounds var body vs ρ = .ok f →
      Agree R f.locals ρ
  | [], ρ, f, h => by
    cases h
    exact Agree.refl _ _
  | v :: vs, ρ, f, h => by
    obtain ⟨g, hg, hf⟩ := bind_eq_ok.1 h
    have hround : Agree R g.locals ρ := (hbody _ g hg).trans (agree_insert_of_not hvar v ρ)
    cases hx : g.exit with
    | onward =>
      simp only [hx] at hf
      obtain ⟨r, hr, rfl⟩ := map_eq_ok.1 hf
      exact (agree_rounds hvar hbody vs g.locals r hr).trans hround
    | loop | function => simp only [hx] at hf; cases hf; exact hround

/-- What is found is dropped, or an error is reported behind it. -/
theorem Settlement.of_meaning (h : s.meaning w m f = .ok g) :
    g = f.dropped ∨ ∃ record r, w.report m record false f.locals = .ok r ∧ g = r.behind f.errors := by
  have hreport : ∀ record, (w.report m record false f.locals).map (Finding.behind f.errors) = .ok g →
      ∃ record r, w.report m record false f.locals = .ok r ∧ g = r.behind f.errors := by
    intro record hr
    obtain ⟨r, hv, rfl⟩ := map_eq_ok.1 hr
    exact ⟨record, r, hv, rfl⟩
  cases s with
  | drop => cases h; exact .inl rfl
  | dropIf condition record =>
    obtain ⟨b, -, hb⟩ := bind_eq_ok.1 h
    cases b with
    | true => cases hb; exact .inl rfl
    | false => exact .inr (hreport record hb)
  | dropUnless condition record =>
    obtain ⟨b, -, hb⟩ := bind_eq_ok.1 h
    cases b with
    | true => exact .inr (hreport record hb)
    | false => cases hb; exact .inl rfl

theorem Settlement.locals_meaning (h : s.meaning w m f = .ok g) : g.locals = f.locals := by
  rcases of_meaning h with rfl | ⟨record, r, hr, rfl⟩
  · rfl
  · obtain ⟨v, -, rfl⟩ := map_eq_ok.1 hr
    rfl

theorem Stmt.mem_targetsOf_of_mem_declaredOf (h : n ∈ declaredOf stmts) : n ∈ targetsOf stmts := by
  induction stmts with
  | nil => simp [declaredOf] at h
  | cons st rest ih =>
    simp only [declaredOf, List.flatMap_cons, List.mem_append] at h
    simp only [targetsOf, List.mem_append]
    rcases h with h | h
    · cases st <;> simp_all [declared, targets]
    · exact .inr (ih h)

theorem Context.Fresh.not_fixed (h : Γ.Fresh n) : ¬ Γ.Fixed n := by
  rintro (hm | ⟨hr, -⟩)
  · exact h.2 hm
  · exact h.1 hr

namespace Plan

theorem not_fixed_of_mem_declared (hp : p.Fits callable Γ) (hn : n ∈ p.declared) : ¬ Γ.Fixed n := by
  induction p generalizing Γ with
  | quiet stmts => exact hp.2 n (Stmt.mem_targetsOf_of_mem_declaredOf hn)
  | seq first second ihf ihs =>
    rcases List.mem_append.1 hn with hn | hn
    · exact ihf (Γ := Γ.loose) hp.1 hn
    · intro hfix
      have hfirst : n ∉ first.declared := fun hmem => ihf hp.1 hmem hfix
      refine ihs hp.2 hn ?_
      rcases hfix with hm | ⟨hr, hs⟩
      · exact .inl hm
      · exact .inr ⟨.inl hr, fun h => h.elim hs hfirst⟩
  | trial t body ih =>
    rw [List.mem_singleton.1 hn]
    exact hp.2.1.not_fixed
  | settle before body settlement ih =>
    intro hfix
    refine ih hp.2.1 hn ?_
    rcases hfix with hm | hk
    · exact .inl (.inl hm)
    · exact .inr hk
  | _ => cases hn

end Plan

/-! ## How a plan ends -/

/-- How a finding may end: behind the loop around it only where that is allowed, and behind the
function only with errors, in a mode where errors do so. -/
structure Finding.Ends (m : Mode) (escapes : Bool) (f : Finding) : Prop where
  loop : f.exit = .loop → escapes = true
  failsFast : f.exit = .function → m.failsFast = true
  errors : f.exit = .function → f.errors ≠ []

namespace Finding.Ends

variable {escapes : Bool}

theorem of_onward (h : f.exit = .onward) : f.Ends m escapes := by constructor <;> simp [h]

theorem behind (h : f.Ends m escapes) (errors : List Json) : (f.behind errors).Ends m escapes :=
  ⟨h.loop, h.failsFast, fun hx hnil => h.errors hx (List.append_eq_nil_iff.1 hnil).2⟩

theorem mono (h : f.Ends m escapes) {escapes' : Bool} (he : escapes = true → escapes' = true) :
    f.Ends m escapes' :=
  ⟨fun hx => he (h.loop hx), h.failsFast, h.errors⟩

theorem onward (h : f.Ends m false) (hm : m.failsFast = false) : f.exit = .onward := by
  cases hx : f.exit with
  | onward => rfl
  | loop => cases h.loop hx
  | function => exact nomatch hm.symm.trans (h.failsFast hx)

end Finding.Ends

theorem Setting.ends_report {record : Expr} {breaks : Bool}
    (h : w.report m record breaks ρ = .ok f) : f.Ends m breaks := by
  obtain ⟨v, -, rfl⟩ := map_eq_ok.1 h
  cases hm : m.failsFast with
  | true => constructor <;> simp [Mode.exitAfter, hm]
  | false =>
    simp only [Mode.exitAfter, hm, Bool.false_eq_true, if_false]
    constructor <;> split <;> simp_all

theorem Setting.ends_quietly (hq : Stmt.QuietBlock R stmts)
    (h : w.quietly stmts ρ = .ok f) : f.Ends m (Stmt.leavesOf stmts) := by
  have hends := execBlock_ends (silentEnv w.values) stmts hq ⟨[], ρ⟩
  unfold quietly at h
  split at h
  · rename_i s hs
    cases h
    rcases hends _ _ hs with hf | ⟨-, hf⟩
    · cases hf
    · constructor <;> simp [hf]
  · cases h
    exact .of_onward rfl
  · cases h

theorem ends_rounds {escapes : Bool} {var : Name} {body : Locals → Except Abort Finding}
    (hbody : ∀ ρ f, body ρ = .ok f → f.Ends m escapes) :
    ∀ (vs : List Json) (ρ : Locals) (f : Finding), rounds var body vs ρ = .ok f → f.Ends m false
  | [], ρ, f, h => by
    cases h
    exact .of_onward rfl
  | v :: vs, ρ, f, h => by
    obtain ⟨g, hg, hf⟩ := bind_eq_ok.1 h
    cases hx : g.exit with
    | onward =>
      simp only [hx] at hf
      obtain ⟨r, hr, rfl⟩ := map_eq_ok.1 hf
      exact (ends_rounds hbody vs g.locals r hr).behind g.errors
    | loop =>
      simp only [hx] at hf
      cases hf
      exact .of_onward rfl
    | function =>
      simp only [hx] at hf
      cases hf
      exact ⟨by simp [hx], (hbody _ _ hg).failsFast, (hbody _ _ hg).errors⟩

theorem Settlement.ends_meaning (hf : f.exit = .onward) (h : s.meaning w m f = .ok g) :
    g.Ends m false := by
  rcases of_meaning h with rfl | ⟨record, r, hr, rfl⟩
  · exact .of_onward hf
  · exact (Setting.ends_report hr).behind f.errors

theorem Mode.failsFast_part (h : m.failsFast = false) (composed : Bool) :
    (m.part composed).failsFast = false := by
  simp only [failsFast, part, Bool.and_eq_false_iff] at h ⊢
  exact h.imp_right fun hc => by simp [hc]

theorem Mode.failsFast_part_true (m : Mode) : (m.part true).failsFast = false := by
  simp [failsFast, part]

theorem Trial.ends_conclude {escapes : Bool} (h : g.Ends (m.part t.composed) escapes) (ρ : Locals) :
    (t.conclude m ρ g).Ends m (t.breaks || escapes) := by
  cases hx : g.exit with
  | onward =>
    simp only [conclude, hx]
    constructor <;> split <;> simp_all
  | loop =>
    simp only [conclude]
    exact ⟨fun _ => by simp [h.loop hx], by simp [hx], by simp [hx]⟩
  | function =>
    simp only [conclude, hx]
    refine ⟨by simp [hx], fun _ => ?_, h.errors⟩
    by_contra hm
    have hpart := Mode.failsFast_part (Bool.eq_false_of_not_eq_true hm) t.composed
    exact nomatch hpart.symm.trans (h.failsFast hx)

namespace Plan

/-- A plan keeps the variables that it may not set. It ends behind the loop around it only if it
escapes, and behind the function only where errors do so, with errors. -/
theorem framed (hw : Inert w.values) (hp : p.Fits callable Γ) (h : p.meaning w m ρ = .ok f) :
    Agree Γ.Kept f.locals ρ ∧ f.Ends m p.escapes := by
  induction p generalizing Γ m ρ f with
  | nothing => cases h; exact ⟨.refl _ _, .of_onward rfl⟩
  | report record breaks =>
    refine ⟨?_, Setting.ends_report h⟩
    obtain ⟨v, -, rfl⟩ := map_eq_ok.1 h
    exact .refl _ _
  | seq first second ihf ihs =>
    obtain ⟨g, hg, hf⟩ := bind_eq_ok.1 h
    obtain ⟨hfirst, hends⟩ := ihf hp.1 hg
    rcases Finding.andThen_eq_ok.1 hf with ⟨-, r, hr, rfl⟩ | ⟨-, rfl⟩
    · obtain ⟨hsecond, hends'⟩ := ihs hp.2 hr
      refine ⟨Agree.trans (hsecond.mono fun n hn => ⟨.inl hn.1, fun hs => ?_⟩) hfirst,
        (hends'.mono fun he => by simp [escapes, he]).behind g.errors⟩
      exact hs.elim hn.2 fun hmem => not_fixed_of_mem_declared hp.1 hmem (.inr hn)
    · exact ⟨hfirst, hends.mono fun he => by simp [escapes, he]⟩
  | quiet stmts =>
    refine ⟨fun n hn => ?_, Setting.ends_quietly hp.1 h⟩
    exact Setting.locals_quietly hw hp.1 h fun hmem => hp.2 n hmem (.inr hn)
  | branch condition yes no ihy ihn =>
    obtain ⟨b, -, hb⟩ := bind_eq_ok.1 h
    cases b with
    | true => exact (ihy hp.2.1 hb).imp_right fun h => h.mono fun he => by simp [escapes, he]
    | false => exact (ihn hp.2.2 hb).imp_right fun h => h.mono fun he => by simp [escapes, he]
  | demand condition record rest ih =>
    have hrest : ∀ {r : Finding}, rest.meaning w m ρ = .ok r →
        Agree Γ.Kept r.locals ρ ∧ r.Ends m rest.escapes := fun hr =>
      (ih hp.2.2.1 hr).imp_left fun h => h.mono fun n hn => ⟨hn.1, id⟩
    obtain ⟨b, -, hb⟩ := bind_eq_ok.1 h
    cases b with
    | true =>
      obtain ⟨g, hg, hf⟩ := bind_eq_ok.1 hb
      have hreport : g.Ends m rest.escapes := (Setting.ends_report hg).mono nofun
      obtain ⟨v, -, rfl⟩ := map_eq_ok.1 hg
      split at hf
      · rcases Finding.andThen_eq_ok.1 hf with ⟨-, r, hr, rfl⟩ | ⟨-, rfl⟩
        · exact (hrest hr).imp_right fun h => h.behind _
        · exact ⟨.refl _ _, hreport⟩
      · cases hf
        exact ⟨.refl _ _, hreport⟩
    | false => exact hrest hb
  | typed pinned test body ih =>
    simp only [meaning] at h
    split at h
    · exact ih hp.2.2 h
    · obtain ⟨b, -, hb⟩ := bind_eq_ok.1 h
      cases b with
      | true => exact ih hp.2.2 hb
      | false => cases hb; exact ⟨.refl _ _, .of_onward rfl⟩
  | next before first second ihf ihs =>
    obtain ⟨g, hg, hf⟩ := bind_eq_ok.1 h
    obtain ⟨hfirst, hends⟩ := ihf hp.2.1 hg
    have hfirst : Agree Γ.Kept g.locals ρ := hfirst.mono fun n hn => ⟨hn.1, id⟩
    rcases Finding.andThen_eq_ok.1 hf with ⟨-, r, hr, rfl⟩ | ⟨-, rfl⟩
    · suffices h : Agree Γ.Kept r.locals g.locals ∧ r.Ends m (first.next before second).escapes from
        ⟨h.1.trans hfirst, h.2.behind g.errors⟩
      split at hr
      · obtain ⟨hsecond, hends'⟩ := ihs hp.2.2.1 hr
        exact ⟨hsecond.mono fun n hn => ⟨hn.1, id⟩, hends'.mono fun he => by simp [escapes, he]⟩
      · cases hr; exact ⟨.refl _ _, .of_onward rfl⟩
    · exact ⟨hfirst, hends.mono fun he => by simp [escapes, he]⟩
  | trial t body ih =>
    obtain ⟨inner, hin, hbody⟩ := bind_eq_ok.1 h
    obtain ⟨g, hg, hf⟩ := bind_eq_ok.1 hbody
    cases hf
    obtain ⟨hkept, hends⟩ := ih hp.2.2.2.1 hg
    refine ⟨?_, Trial.ends_conclude hends ρ⟩
    have henter : Agree Γ.reads inner ρ :=
      Trial.agree_enter (fun d hd => (hp.2.2.1 d hd).1.fresh.1) hin
    have hinner : Agree Γ.reads g.locals ρ := (hkept.mono fun n hn => ⟨.inl hn, id⟩).trans henter
    have hvalid : ∀ v, Agree Γ.reads _ ρ :=
      fun v => agree_insert_of_not hp.2.1.1 v ρ
    cases hx : g.exit with
    | onward => simpa only [Trial.conclude, hx] using (hvalid _).mono fun n hn => hn.1
    | _ => simpa only [Trial.conclude, hx] using hinner.mono fun n hn => hn.1
  | settle before body settlement ih =>
    obtain ⟨g, hg, hf⟩ := bind_eq_ok.1 h
    obtain ⟨hbody, hends⟩ := ih hp.2.1 hg
    have hstays : body.escapes = false := hp.2.2.2
    have hx : g.exit = .onward := (hstays ▸ hends).onward m.failsFast_part_true
    simp only [hx] at hf
    refine ⟨?_, (Settlement.ends_meaning hx hf).mono nofun⟩
    rw [Settlement.locals_meaning hf]
    exact hbody
  | loop var along body ih =>
    obtain ⟨vs, -, hf⟩ := bind_eq_ok.1 h
    refine ⟨agree_rounds (fun hk => hp.2.1.1 hk.1) (fun ρ f hb => ?_) vs ρ f hf,
      ends_rounds (fun ρ f hb => (ih hp.2.2 hb).2) vs ρ f hf⟩
    exact (ih hp.2.2 hb).1.mono fun n hn => ⟨.inl hn.1, fun hs => hn.2 hs.2⟩
  | leave => cases h; exact ⟨.refl _ _, fun _ => rfl, nofun, nofun⟩
  | call invocation callee args =>
    obtain ⟨vs, -, hf⟩ := bind_eq_ok.1 h
    obtain ⟨errors, -, hf⟩ := bind_eq_ok.1 hf
    cases hf
    refine ⟨.refl _ _, ?_⟩
    constructor <;> split <;> simp_all
  | schema s body ih => exact ih hp.1 h
  | raw stmts => exact hp.elim

section Framed

variable (hw : Inert w.values) (hp : p.Fits callable Γ) (h : p.meaning w m ρ = .ok f)

include hw hp h

theorem agree_meaning : Agree Γ.Kept f.locals ρ := (framed hw hp h).1

theorem ends_meaning : f.Ends m p.escapes := (framed hw hp h).2

theorem agree_meaning_of_frozen (hs : ∀ n, ¬ Γ.sets n) : Agree Γ.reads f.locals ρ :=
  (agree_meaning hw hp h).mono fun n hn => ⟨hn, hs n⟩

/-- A plan that does not escape goes on where errors do not leave functions at once. -/
theorem exit_eq_onward (he : p.escapes = false) (hm : m.failsFast = false) : f.exit = .onward :=
  (he ▸ ends_meaning hw hp h).onward hm

end Framed

end Plan
end SchemaCompiler
