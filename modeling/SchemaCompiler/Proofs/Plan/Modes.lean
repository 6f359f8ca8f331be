import SchemaCompiler.Proofs.Plan.Extension

/-!
# The two ways to treat errors

A plan can be carried out so that all errors are collected, or so that the first one ends the
search. The errors of the second way are some of those of the first, in their order, and there are
none only where there are none at all. What the second way passes over sets no variable that is
read later on, so that both go on from the same variables for as long as they go on together. Where
nothing weighs errors, the second way finds just the first of them.
-/
namespace SchemaCompiler

open Machine

variable {e : Expr} {lone : Prop} {Γ : Context}

/-! ## Values -/

namespace Setting

variable {w W : Setting} {R : Name → Prop} {ρ P : Locals}

section

variable (hv : w.values = W.values) (hw : Inert W.values) (ha : Agree R ρ P)

include hv hw ha

theorem eval_agree (he : e.Within R) : w.eval ρ e = W.eval P e := by
  obtain ⟨r, hr, hr', -⟩ := eval_alike (s := ⟨[], ρ⟩) (t := ⟨[], P⟩) (silentEnv_holds hw)
    (silentEnv_holds hw) ha e he
  rw [eval, eval, evalIn, evalIn, hv, hr, hr']

theorem evalItems_agree {items : List Expr} (he : Expr.WithinItems R items) :
    w.evalItems ρ items = W.evalItems P items := by
  obtain ⟨r, hr, hr', -⟩ := evalItems_alike (s := ⟨[], ρ⟩) (t := ⟨[], P⟩) (silentEnv_holds hw)
    (silentEnv_holds hw) ha items he
  rw [evalItems, evalItems, hv, hr, hr']

theorem test_agree (he : e.Within R) : w.test ρ e = W.test P e := by
  rw [test, test, eval_agree hv hw ha he]

theorem index_agree (he : e.Within R) : w.index ρ e = W.index P e := by
  rw [index, index, eval_agree hv hw ha he]

theorem values_agree
    {along : Traversal} (ho : along.Within R) : along.values w ρ = along.values W P := by
  cases along with
  | range start stop =>
    simp only [Traversal.values, index_agree hv hw ha ho.1, index_agree hv hw ha ho.2]
  | keys object | items object =>
    simp only [Traversal.values, eval_agree hv hw ha (show object.Within R from ho)]

/-- Quiet statements end alike wherever what they read is the same, in variables that agree on what
they declare as well. -/
theorem quietly_agree {stmts : List Stmt} (hq : Stmt.QuietBlock R stmts) {f F : Finding}
    (hf : w.quietly stmts ρ = .ok f) (hF : W.quietly stmts P = .ok F) :
    f.errors = [] ∧ F.errors = [] ∧ f.exit = F.exit ∧
      Agree (fun n => R n ∨ f.exit = .onward ∧ n ∈ Stmt.declaredOf stmts) f.locals F.locals := by
  obtain ⟨r, s, t, hs, ht, -, hagree⟩ := execBlock_parallel (silentEnv_holds hw)
    (silentEnv_holds hw) stmts hq ⟨[], ρ⟩ ⟨[], P⟩ ha
  have hends := execBlock_ends (silentEnv W.values) stmts hq ⟨[], ρ⟩
  rw [quietly, hv, hs] at hf
  rw [quietly, ht] at hF
  rw [hs] at hends
  cases r with
  | error a => cases hf
  | ok flow =>
    have hag := hagree flow rfl
    cases flow with
    | normal =>
      cases hf
      cases hF
      exact ⟨rfl, rfl, rfl, hag.mono fun n hn => hn.imp_right And.right⟩
    | leave =>
      cases hf
      cases hF
      exact ⟨rfl, rfl, rfl, hag.mono fun n hn => hn.elim id fun h => by cases h.1⟩
    | «return» v => rcases hends _ _ rfl with h | ⟨h, -⟩ <;> cases h

end

end Setting

/-! ## Some errors and all errors -/

/-- Errors that are found where the first may end the search, of those that are found where all are
collected; `lone` says that it does end it. -/
structure Abridges (lone : Prop) (few all : List Json) : Prop where
  sublist : few.Sublist all
  nil : few = [] → all = []
  first : lone → few = all.take 1

namespace Abridges

variable {lone : Prop} {few all few' all' : List Json}

theorem refl_nil : Abridges lone [] [] := ⟨.refl _, fun _ => rfl, fun _ => rfl⟩

theorem refl_singleton (v : Json) : Abridges lone [v] [v] :=
  ⟨.refl _, (fun h => nomatch h), fun _ => rfl⟩

variable (h : Abridges lone few all)

include h

theorem isEmpty_eq : few.isEmpty = all.isEmpty := by
  cases few with
  | nil => rw [h.nil rfl]
  | cons v rest =>
    cases all with
    | nil => cases h.sublist
    | cons u others => rfl

theorem ne_nil (hne : few ≠ []) : all ≠ [] := by
  rintro rfl
  exact hne (List.sublist_nil.1 h.sublist)

theorem append_right (hne : few ≠ []) (more : List Json) : Abridges lone few (all ++ more) where
  sublist := h.sublist.trans (List.sublist_append_left _ _)
  nil := fun hnil => absurd hnil hne
  first := fun hl => by
    obtain ⟨v, rest, rfl⟩ := List.exists_cons_of_ne_nil (h.ne_nil hne)
    simpa using h.first hl

theorem append (h' : Abridges lone few' all') (hl : lone → few = []) :
    Abridges lone (few ++ few') (all ++ all') where
  sublist := h.sublist.append h'.sublist
  nil := fun hnil => by
    obtain ⟨h₁, h₂⟩ := List.append_eq_nil_iff.1 hnil
    rw [h.nil h₁, h'.nil h₂, List.append_nil]
  first := fun hlone => by
    have hnil := hl hlone
    rw [hnil, h.nil hnil]
    exact h'.first hlone

end Abridges

/-- Two settings with the same values, in which calls find some of the errors and all of them. -/
structure Setting.Abridges (lone : Prop) (w W : Setting) : Prop where
  values : w.values = W.values
  inert : Inert W.values
  call : ∀ callee args few all, w.call callee args = .ok few → W.call callee args = .ok all →
    SchemaCompiler.Abridges lone few all

namespace Finding

/-- What is found where the first error may end the search, beside what is found where all are
collected. Either an error has ended the search, or both go on alike, with variables that agree. -/
structure Abridges (lone : Prop) (reads : Name → Prop) (declared : List Name) (breaks : Bool)
    (f F : Finding) : Prop where
  errors : SchemaCompiler.Abridges lone f.errors F.errors
  ends : lone → f.errors ≠ [] → f.exit = .function
  together : f.errors ≠ [] ∧ (f.exit = .function ∨ breaks = true ∧ f.exit = .loop) ∨
    f.exit = F.exit ∧ Agree (fun n => reads n ∨ f.exit = .onward ∧ n ∈ declared) f.locals F.locals

namespace Abridges

variable {lone : Prop} {R : Name → Prop} {D D' : List Name} {breaks breaks' : Bool}
  {f F g G : Finding}

theorem weaken (h : Abridges lone R D breaks f F) {S : Name → Prop} (hr : ∀ n, S n → R n)
    (hd : D' ⊆ D) (hb : breaks = true → breaks' = true) : Abridges lone S D' breaks' f F where
  errors := h.errors
  ends := h.ends
  together := h.together.imp (fun ⟨hne, hx⟩ => ⟨hne, hx.imp_right fun ⟨hbr, hl⟩ => ⟨hb hbr, hl⟩⟩)
    fun ⟨hx, ha⟩ => ⟨hx, ha.mono fun n hn => hn.imp (hr n) fun ⟨ho, hm⟩ => ⟨ho, hd hm⟩⟩

theorem clear {ρ P : Locals} (ha : Agree R ρ P) : Abridges lone R [] breaks (clear ρ) (clear P) :=
  ⟨.refl_nil, fun _ h => absurd rfl h, .inr ⟨rfl, ha.mono fun n hn => hn.resolve_right (by simp)⟩⟩

section

variable (h : Abridges lone R D breaks f F)

include h

theorem ended (hne : f.errors ≠ [])
    (hx : f.exit = .function ∨ breaks' = true ∧ f.exit = .loop) {S : Name → Prop}
    {more : List Json} (hG : G.errors = F.errors ++ more) : Abridges lone S D' breaks' f G where
  errors := hG ▸ h.errors.append_right hne more
  ends := h.ends
  together := .inl ⟨hne, hx⟩

theorem eq_nil (hx : f.exit ≠ .function) (hl : lone) : f.errors = [] := by
  by_contra hne
  exact hx (h.ends hl hne)

theorem behind (hx : f.exit = .onward) {S : Name → Prop} (h' : Abridges lone S D' breaks' g G) :
    Abridges lone S D' breaks' (g.behind f.errors) (G.behind F.errors) := by
  have hnil : lone → f.errors = [] := h.eq_nil (by simp [hx])
  refine ⟨h.errors.append h'.errors hnil, fun hl hne => ?_, ?_⟩
  · rw [hnil hl] at hne
    exact h'.ends hl hne
  · refine h'.together.imp_left fun ⟨hne, hend⟩ => ⟨?_, hend⟩
    exact fun hnil => hne (List.append_eq_nil_iff.1 hnil).2

theorem andThen (hb : breaks = true → breaks' = true) {next NEXT : Locals → Except Abort Finding}
    (hnext : f.exit = .onward → Agree (fun n => R n ∨ n ∈ D) f.locals F.locals →
      ∀ r r', next f.locals = .ok r → NEXT F.locals = .ok r' →
        Abridges lone (fun n => R n ∨ n ∈ D) D' breaks' r r')
    (hg : f.andThen next = .ok g) (hG : F.andThen NEXT = .ok G) :
    Abridges lone R (D ++ D') breaks' g G := by
  obtain ⟨more, hmore⟩ : ∃ more, G.errors = F.errors ++ more := by
    rcases andThen_eq_ok.1 hG with ⟨-, r, -, rfl⟩ | ⟨-, rfl⟩
    · exact ⟨r.errors, rfl⟩
    · exact ⟨[], by simp⟩
  rcases h.together with ⟨hne, hend⟩ | ⟨hx, ha⟩
  · have hstop : f.exit ≠ .onward := by
      rcases hend with he | ⟨-, he⟩ <;> simp [he]
    rw [andThen_ended hstop] at hg
    cases hg
    exact h.ended hne (hend.imp_right fun ⟨hbr, hl⟩ => ⟨hb hbr, hl⟩) hmore
  · rcases andThen_eq_ok.1 hg with ⟨hon, r, hr, rfl⟩ | ⟨hstop, rfl⟩
    · rcases andThen_eq_ok.1 hG with ⟨-, r', hr', rfl⟩ | ⟨hstop, rfl⟩
      · have hthen := hnext hon (ha.mono fun n hn => hn.imp_right fun hm => ⟨hon, hm⟩) r r' hr hr'
        obtain ⟨herrors, hends, htogether⟩ := h.behind hon hthen
        refine ⟨herrors, hends, htogether.imp_right fun ⟨hexit, hagree⟩ => ⟨hexit, ?_⟩⟩
        refine hagree.mono fun n hn => ?_
        rcases hn with hn | ⟨ho, hm⟩
        · exact .inl (.inl hn)
        · rcases List.mem_append.1 hm with hm | hm
          · exact .inl (.inr hm)
          · exact .inr ⟨ho, hm⟩
      · exact absurd (hx ▸ hon) hstop
    · rcases andThen_eq_ok.1 hG with ⟨hon, -⟩ | ⟨-, rfl⟩
      · exact absurd (hx.trans hon) hstop
      · refine ⟨h.errors, h.ends, .inr ⟨hx, ha.mono fun n hn => ?_⟩⟩
        exact hn.imp_right fun ⟨ho, _⟩ => absurd ho hstop

end

end Abridges
end Finding

theorem Setting.report_abridges {w W : Setting} (hs : w.Abridges lone W)
    {R : Name → Prop} {ρ P : Locals} (ha : Agree R ρ P) {record : Expr} (hr : record.Within R)
    {m M : Mode} (hm : m.allErrors = false) (hM : M.allErrors = true)
    (hl : lone → m.failsFast = true) {breaks : Bool} {f F : Finding}
    (hf : w.report m record breaks ρ = .ok f) (hF : W.report M record breaks P = .ok F) :
    f.Abridges lone R [] breaks F := by
  obtain ⟨v, hv, rfl⟩ := map_eq_ok.1 hf
  obtain ⟨V, hV, rfl⟩ := map_eq_ok.1 hF
  obtain rfl : v = V := by
    rw [eval_agree hs.values hs.inert ha hr, hV] at hv
    exact (Except.ok.inj hv).symm
  refine ⟨.refl_singleton v, fun hlone _ => by simp [Mode.exitAfter, hl hlone], ?_⟩
  by_cases hff : m.failsFast = true
  · exact .inl ⟨by simp, .inl (by simp [Mode.exitAfter, hff])⟩
  · by_cases hb : breaks = true
    · exact .inl ⟨by simp, .inr ⟨hb, by simp [Mode.exitAfter, hff, hb, hm]⟩⟩
    · refine .inr ⟨?_, ha.mono fun n hn => hn.resolve_right (by simp)⟩
      have hFF : M.failsFast = false := by simp [Mode.failsFast, hM]
      simp [Mode.exitAfter, hff, hFF, hb]

/-- The rounds of a loop, where the rounds go on alike or nothing is set that is read later on. -/
theorem rounds_abridges {R : Name → Prop} {var : Name} (hvar : ¬ R var)
    {breaks : Bool} {body BODY : Locals → Except Abort Finding}
    (hbody : ∀ v ρ P, Agree R ρ P → ∀ f F, body (Assoc.insert var v ρ) = .ok f →
      BODY (Assoc.insert var v P) = .ok F → f.Abridges lone R [] breaks F)
    (hkept : breaks = true → ∀ ρ f, body ρ = .ok f → Agree R f.locals ρ)
    (hKEPT : breaks = true → ∀ P F, BODY P = .ok F → Agree R F.locals P)
    {M : Mode} (hMF : M.failsFast = false) {escapes : Bool}
    (hENDS : ∀ P F, BODY P = .ok F → F.Ends M escapes) :
    ∀ (vs : List Json) (ρ P : Locals), Agree R ρ P → ∀ f F, rounds var body vs ρ = .ok f →
      rounds var BODY vs P = .ok F → f.Abridges lone R [] false F
  | [], ρ, P, ha, f, F, hf, hF => by
    cases hf
    cases hF
    exact .clear ha
  | v :: vs, ρ, P, ha, f, F, hf, hF => by
    have honward : F.exit = .onward := (ends_rounds hENDS _ _ _ hF).onward hMF
    obtain ⟨g, hg, hf⟩ := bind_eq_ok.1 hf
    obtain ⟨G, hG, hF'⟩ := bind_eq_ok.1 hF
    have hround := hbody v ρ P ha g G hg hG
    obtain ⟨more, hmore⟩ : ∃ more, F.errors = G.errors ++ more := by
      cases hX : G.exit with
      | onward =>
        simp only [hX] at hF'
        obtain ⟨r, -, rfl⟩ := map_eq_ok.1 hF'
        exact ⟨r.errors, rfl⟩
      | loop => simp only [hX] at hF'; cases hF'; exact ⟨[], by simp⟩
      | function => exact nomatch hMF.symm.trans ((hENDS _ _ hG).failsFast hX)
    rcases hround.together with ⟨hne, hx | ⟨hb, hx⟩⟩ | ⟨hx, hag⟩
    · simp only [hx] at hf
      cases hf
      exact hround.ended hne (.inl hx) hmore
    · simp only [hx] at hf
      cases hf
      -- the search has left the loop; the other goes on, and sets nothing that is read behind it
      have hround' : Agree R g.locals ρ :=
        (hkept hb _ g hg).trans (agree_insert_of_not hvar v ρ)
      have hagree : Agree R g.locals F.locals :=
        (hround'.trans ha).trans (agree_rounds hvar (hKEPT hb) (v :: vs) P F hF).symm
      refine ⟨hmore ▸ hround.errors.append_right hne more, fun hl _ => ?_, .inr ⟨?_, ?_⟩⟩
      · have hend := hround.ends hl hne
        rw [hx] at hend
        cases hend
      · exact honward.symm
      · exact hagree.mono fun n hn => hn.resolve_right (by simp)
    · have hag' : Agree R g.locals G.locals := hag.mono fun n hn => .inl hn
      cases hX : g.exit with
      | onward =>
        simp only [hX] at hf
        simp only [← hx, hX] at hF'
        obtain ⟨r, hr, rfl⟩ := map_eq_ok.1 hf
        obtain ⟨r', hr', rfl⟩ := map_eq_ok.1 hF'
        exact hround.behind hX
          (rounds_abridges hvar hbody hkept hKEPT hMF hENDS vs g.locals G.locals hag' r r' hr hr')
      | loop =>
        simp only [hX] at hf
        simp only [← hx, hX] at hF'
        cases hf
        cases hF'
        refine ⟨hround.errors, fun hl hne => ?_, .inr ⟨rfl, hag'.mono fun n hn => ?_⟩⟩
        · have hend := hround.ends hl hne
          rw [hX] at hend
          cases hend
        · exact hn.resolve_right (by simp)
      | function => exact nomatch hMF.symm.trans ((hENDS _ _ hG).failsFast (hx ▸ hX))

namespace Plan

def weighs : Plan → Bool
  | settle _ _ _ => true
  | trial t body => t.composed || body.weighs
  | seq first second => first.weighs || second.weighs
  | branch _ yes no => yes.weighs || no.weighs
  | demand _ _ rest => rest.weighs
  | typed _ _ body => body.weighs
  | next _ first second => first.weighs || second.weighs
  | loop _ _ body => body.weighs
  | schema _ body => body.weighs
  | _ => false

end Plan

def Context.Knowing (Γ : Context) (w : Setting) (ρ : Locals) : Prop :=
  ∀ test, Γ.known test → test.Within Γ.reads → ∀ b, w.test ρ test = .ok b → b = true

theorem Context.knowing_loose (Γ : Context) (w : Setting) (ρ : Locals) : Γ.loose.Knowing w ρ :=
  fun _ h => h.elim

section Ways

variable {lone : Prop} {w W : Setting} {callable : Name → Bool → Prop} {m M : Mode} {ρ P : Locals}
  {f F g G : Finding}

theorem Trial.enter_agree (hs : w.Abridges lone W) {t : Trial}
    (hd : ∀ d ∈ t.descent, d.Fits Γ ∧ d.name ≠ t.before) (ha : Agree Γ.reads ρ P)
    {inner INNER : Locals} (hin : t.enter w ρ = .ok inner) (hIN : t.enter W P = .ok INNER) :
    Agree (Γ.inTrial t).reads inner INNER := by
  unfold enter at hin hIN
  cases hdesc : t.descent with
  | none =>
    rw [hdesc] at hin hIN
    cases hin
    cases hIN
    exact ha.mono fun n hn => hn.resolve_right (by simp [hdesc])
  | some d =>
    rw [hdesc] at hin hIN
    obtain ⟨v, hv, hin⟩ := bind_eq_ok.1 hin
    obtain ⟨V, hV, hIN⟩ := bind_eq_ok.1 hIN
    cases hin
    cases hIN
    have hfits := (hd d hdesc).1
    have hwithin : (Expr.index (.var d.base) d.key).Within Γ.reads := ⟨hfits.base.1, hfits.key⟩
    obtain rfl : v = V := by
      rw [Setting.eval_agree hs.values hs.inert ha hwithin, hV] at hv
      exact (Except.ok.inj hv).symm
    refine (ha.insert d.name v).mono fun n hn => hn.imp_right ?_
    rintro ⟨d', hd', rfl⟩
    rw [hdesc] at hd'
    rw [Option.some.inj hd']

theorem Settlement.abridges (hs : w.Abridges lone W) (hl : ¬ lone) {D : List Name}
    {breaks : Bool} (h : f.Abridges lone Γ.reads D breaks F) (hx : f.exit = .onward)
    (hX : F.exit = .onward) (ha : Agree (fun n => Γ.reads n ∨ n ∈ D) f.locals F.locals)
    {s : Settlement} (hw : s.Within (Γ.declare D).reads) (hm : m.allErrors = false)
    (hM : M.allErrors = true) (hg : s.meaning w m f = .ok g) (hG : s.meaning W M F = .ok G) :
    g.Abridges lone Γ.reads D breaks G := by
  have hdrop : f.dropped.Abridges lone Γ.reads D breaks F.dropped :=
    ⟨.refl_nil, fun _ hne => absurd rfl hne, .inr ⟨hx.trans hX.symm, ha.mono fun n hn =>
      hn.imp_right And.right⟩⟩
  have hreport : ∀ record : Expr, record.Within (Γ.declare D).reads →
      (w.report m record false f.locals).map (Finding.behind f.errors) = .ok g →
      (W.report M record false F.locals).map (Finding.behind F.errors) = .ok G →
        g.Abridges lone Γ.reads D breaks G := by
    intro record hr hg hG
    obtain ⟨r, hr₁, rfl⟩ := map_eq_ok.1 hg
    obtain ⟨r', hr₂, rfl⟩ := map_eq_ok.1 hG
    have habridges := h.behind hx (Setting.report_abridges hs ha hr hm hM
      (fun hlone => absurd hlone hl) hr₁ hr₂)
    refine ⟨habridges.errors, habridges.ends, habridges.together.imp ?_ fun ⟨hexit, hag⟩ => ⟨hexit, ?_⟩⟩
    · rintro ⟨hne, hend | ⟨hb, -⟩⟩
      · exact ⟨hne, .inl hend⟩
      · cases hb
    · exact hag.mono fun n hn => .inl (hn.imp_right And.right)
  have htest : ∀ condition : Expr, condition.Within (Γ.declare D).reads →
      w.test f.locals condition = W.test F.locals condition := fun condition hc =>
    Setting.test_agree hs.values hs.inert ha hc
  cases s with
  | drop =>
    cases hg
    cases hG
    exact hdrop
  | dropIf condition record =>
    obtain ⟨b, hb, hg⟩ := bind_eq_ok.1 hg
    obtain ⟨B, hB, hG⟩ := bind_eq_ok.1 hG
    rw [htest condition hw.1, hB] at hb
    cases hb
    cases b with
    | true =>
      cases hg
      cases hG
      exact hdrop
    | false => exact hreport record hw.2 hg hG
  | dropUnless condition record =>
    obtain ⟨b, hb, hg⟩ := bind_eq_ok.1 hg
    obtain ⟨B, hB, hG⟩ := bind_eq_ok.1 hG
    rw [htest condition hw.1, hB] at hb
    cases hb
    cases b with
    | true => exact hreport record hw.2 hg hG
    | false =>
      cases hg
      cases hG
      exact hdrop

/-- What the rest of a plan finds where the search has passed it over because of an error. -/
theorem Finding.Abridges.passed {R : Name → Prop} {breaks breaks' : Bool} {Q : Finding}
    (h : f.Abridges lone R [] breaks F) (hne : f.errors ≠ []) (hx : f.exit = .onward)
    (hQ : Q.exit = .onward) (ha : Agree R f.locals F.locals) (hag : Agree R Q.locals F.locals) :
    f.Abridges lone R [] breaks' (Q.behind F.errors) where
  errors := h.errors.append_right hne Q.errors
  ends := h.ends
  together := .inr ⟨by rw [hx, exit_behind, hQ], (ha.trans hag.symm).mono fun n hn =>
    hn.resolve_right (by simp)⟩

/-- Carrying out a plan so that the first error ends the search, and so that all are collected. -/
theorem Plan.abridges (hs : w.Abridges lone W) {p : Plan} (hp : p.Fits callable Γ)
    (hm : m.allErrors = false) (hM : M.allErrors = true)
    (hl : lone → m.failsFast = true ∧ p.weighs = false) (ha : Agree Γ.reads ρ P)
    (hk : Γ.Knowing w ρ) (hf : p.meaning w m ρ = .ok f) (hF : p.meaning W M P = .ok F) :
    f.Abridges lone Γ.reads p.declared p.breaks F := by
  have hwI : Inert w.values := hs.values ▸ hs.inert
  have hMF : M.failsFast = false := by simp [Mode.failsFast, hM]
  induction p generalizing Γ m M ρ P f F with
  | nothing =>
    cases hf
    cases hF
    exact .clear ha
  | report record breaks =>
    exact Setting.report_abridges hs ha hp hm hM (fun hlone => (hl hlone).1) hf hF
  | seq first second ihf ihs =>
    obtain ⟨g, hg, hf⟩ := bind_eq_ok.1 hf
    obtain ⟨G, hG, hF⟩ := bind_eq_ok.1 hF
    simp only [weighs, Bool.or_eq_false_iff] at hl
    have hfirst := ihf hp.1 hm hM (fun h => ⟨(hl h).1, (hl h).2.1⟩) ha
      (Γ.knowing_loose w ρ) hg hG hMF
    refine hfirst.andThen (fun hb => by simp [breaks, hb]) (fun _ hag r r' hr hr' => ?_) hf hF
    have hsecond := ihs hp.2 hm hM
      (fun h => ⟨(hl h).1, (hl h).2.2⟩) hag (fun _ h => h.elim) hr hr' hMF
    exact hsecond.weaken (fun _ => id) (fun _ => id) fun hb => by simp [breaks, hb]
  | quiet stmts =>
    obtain ⟨hnil, hNIL, hx, hag⟩ := Setting.quietly_agree hs.values hs.inert ha hp.1 hf hF
    refine ⟨?_, fun _ hne => absurd hnil hne, .inr ⟨hx, hag⟩⟩
    rw [hnil, hNIL]
    exact .refl_nil
  | branch condition yes no ihy ihn =>
    obtain ⟨b, hb, hf⟩ := bind_eq_ok.1 hf
    obtain ⟨B, hB, hF⟩ := bind_eq_ok.1 hF
    rw [Setting.test_agree hs.values hs.inert ha hp.1, hB] at hb
    cases hb
    simp only [weighs, Bool.or_eq_false_iff] at hl
    cases b with
    | true =>
      refine (ihy hp.2.1 hm hM (fun h => ⟨(hl h).1, (hl h).2.1⟩) ha (fun _ h => h.elim) hf hF
        hMF).weaken (fun _ => id) (List.nil_subset _) fun hb => by simp [breaks, hb]
    | false =>
      refine (ihn hp.2.2 hm hM (fun h => ⟨(hl h).1, (hl h).2.2⟩) ha (fun _ h => h.elim) hf hF
        hMF).weaken (fun _ => id) (List.nil_subset _) fun hb => by simp [breaks, hb]
  | demand condition record rest ih =>
    obtain ⟨b, hb, hf⟩ := bind_eq_ok.1 hf
    obtain ⟨B, hB, hF⟩ := bind_eq_ok.1 hF
    rw [Setting.test_agree hs.values hs.inert ha hp.1, hB] at hb
    cases hb
    cases b with
    | true =>
      obtain ⟨g, hg, hf⟩ := bind_eq_ok.1 hf
      obtain ⟨G, hG, hF⟩ := bind_eq_ok.1 hF
      simp only [hm, hM] at hf hF
      cases hf
      have hreport := Setting.report_abridges hs ha hp.2.1 hm hM (fun h => (hl h).1) hg hG
      have hne : f.errors ≠ [] := by
        obtain ⟨v, -, rfl⟩ := map_eq_ok.1 hg
        simp
      rcases Finding.andThen_eq_ok.1 hF with ⟨hX, r, hr, rfl⟩ | ⟨hX, rfl⟩
      · rcases hreport.together with ⟨-, hx | ⟨hb, -⟩⟩ | ⟨hx, hag⟩
        · exact hreport.ended hne (.inl hx) rfl
        · cases hb
        · have hQ : r.exit = .onward := exit_eq_onward hs.inert hp.2.2.1 hr hp.2.2.2 hMF
          exact hreport.passed hne (hx.trans hX) hQ (hag.mono fun n hn => .inl hn)
            (agree_meaning_of_frozen (Γ := Γ.loose.frozen) hs.inert hp.2.2.1 hr fun _ => id)
      · exact absurd ((Setting.ends_report hG).onward hMF) hX
    | false =>
      exact (ih hp.2.2.1 hm hM hl ha (fun _ h => h.elim) hf hF
        hMF).weaken (fun _ => id) (List.nil_subset _) id
  | typed pinned test body ih =>
    have hbody : body.meaning w m ρ = .ok f → body.meaning W M P = .ok F →
        f.Abridges lone Γ.reads [] body.breaks F := fun hf hF =>
      (ih hp.2.2 hm hM hl ha hk hf hF hMF).weaken (fun _ => id) (List.nil_subset _) id
    simp only [meaning, hm, hM, Bool.not_true, Bool.and_false] at hf hF
    obtain ⟨B, hB, hF⟩ := bind_eq_ok.1 hF
    have htest : w.test ρ test = .ok B := by
      rw [Setting.test_agree hs.values hs.inert ha hp.1, hB]
    cases pinned with
    | true =>
      obtain rfl : B = true := hk test (hp.2.1 rfl) hp.1 B htest
      exact hbody hf hF
    | false =>
      obtain ⟨b, hb, hf⟩ := bind_eq_ok.1 hf
      rw [htest] at hb
      cases hb
      cases B with
      | true => exact hbody hf hF
      | false =>
        cases hf
        cases hF
        exact .clear ha
  | next before first second ihf ihs =>
    obtain ⟨g, hg, hf⟩ := bind_eq_ok.1 hf
    obtain ⟨G, hG, hF⟩ := bind_eq_ok.1 hF
    simp only [weighs, Bool.or_eq_false_iff] at hl
    obtain ⟨-, hfits₁, hfits₂, hstays⟩ := hp
    have hfirst : g.Abridges lone Γ.reads [] first.breaks G :=
      (ihf hfits₁ hm hM (fun h => ⟨(hl h).1, (hl h).2.1⟩) ha hk hg hG hMF).weaken
        (fun _ => id) (List.nil_subset _) id
    have hkept : Agree Γ.reads g.locals ρ :=
      agree_meaning_of_frozen (Γ := Γ.frozen) hwI hfits₁ hg fun _ => id
    simp only [hm, hM, Bool.false_or] at hf hF
    by_cases hnil : g.errors = []
    · have hbreaks : first.breaks = true → (first.breaks || second.breaks) = true :=
        fun hb => by simp [hb]
      have hnext : f.Abridges lone Γ.reads ([] ++ []) _ F :=
        hfirst.andThen hbreaks (fun _ hag r r' hr hr' => ?_) hf hF
      · exact hnext.weaken (fun _ => id) (fun _ => id) id
      · have hag' : Agree Γ.reads g.locals G.locals := hag.mono fun n hn => .inl hn
        rw [hnil] at hr
        have hknown : (Γ.frozen.knowing first).Knowing w g.locals := by
          intro test htest hwithin b hb
          have hstart : w.test ρ test = .ok b := by
            rw [← hb]
            exact (Setting.test_agree rfl hwI hkept hwithin).symm
          rcases htest with htest | htest
          · exact hk test htest hwithin b hstart
          · exact htest w m ρ g hg hnil b hstart
        have hsecond := ihs hfits₂ hm hM (fun h => ⟨(hl h).1, (hl h).2.2⟩) hag' hknown hr hr' hMF
        exact hsecond.weaken (fun n hn => hn.resolve_right (by simp)) (List.nil_subset _)
          fun hb => by simp [hb]
    · have hskip : ∀ ρ, (if g.errors.isEmpty = true then second.meaning w m ρ else .ok (.clear ρ)) =
          .ok (.clear ρ) := fun ρ => by simp [hnil]
      simp only [hskip] at hf
      have hsame : f = g := by
        rcases Finding.andThen_eq_ok.1 hf with ⟨hx, r, hr, rfl⟩ | ⟨-, rfl⟩
        · cases hr
          obtain ⟨errors, exit, locals⟩ := g
          obtain rfl : exit = .onward := hx
          simp [Finding.behind]
        · rfl
      subst hsame
      rcases Finding.andThen_eq_ok.1 hF with ⟨hX, r, hr, rfl⟩ | ⟨hX, rfl⟩
      · rcases hfirst.together with ⟨-, hx⟩ | ⟨hx, hag⟩
        · exact hfirst.ended hnil (hx.imp_right (And.imp_left fun hb => by simp [breaks, hb])) rfl
        · have hQ : r.exit = .onward := exit_eq_onward hs.inert hfits₂ hr hstays hMF
          exact hfirst.passed hnil (hx.trans hX) hQ (hag.mono fun n hn => .inl hn)
            (agree_meaning_of_frozen (Γ := Γ.frozen.knowing first) hs.inert hfits₂ hr fun _ => id)
      · exact hfirst.weaken (fun _ => id) (fun _ => id) fun hb => by simp [breaks, hb]
  | trial t body ih =>
    obtain ⟨inner, hin, hf⟩ := bind_eq_ok.1 hf
    obtain ⟨INNER, hIN, hF⟩ := bind_eq_ok.1 hF
    obtain ⟨g, hg, hf⟩ := bind_eq_ok.1 hf
    obtain ⟨G, hG, hF⟩ := bind_eq_ok.1 hF
    cases hf
    cases hF
    simp only [weighs, Bool.or_eq_false_iff] at hl
    have hMF' : (M.part t.composed).failsFast = false := Mode.failsFast_part hMF t.composed
    have hbody := ih hp.2.2.2.1 (m := m.part t.composed) (M := M.part t.composed) hm hM
      (fun h => ⟨by simpa [Mode.part, (hl h).2.1] using (hl h).1, (hl h).2.2⟩)
      (Trial.enter_agree hs hp.2.2.1 ha hin hIN) (fun _ h => h.elim) hg hG hMF'
    have hX : G.exit = .onward := exit_eq_onward hs.inert hp.2.2.2.1 hG hp.2.2.2.2 hMF'
    have hends := ends_meaning hwI hp.2.2.2.1 hg
    cases hgx : g.exit with
    | loop => simp [hp.2.2.2.2] at hends; cases hends.loop hgx
    | function =>
      have hne : g.errors ≠ [] := hends.errors hgx
      simp only [Trial.conclude, hgx, hX]
      exact hbody.ended hne (.inl hgx) (List.append_nil _).symm
    | onward =>
      have hlone : lone → g.errors = [] := hbody.eq_nil (by simp [hgx])
      simp only [Trial.conclude, hgx, hX, hm, hM, Bool.not_false, Bool.and_true, Bool.not_true,
        Bool.and_false]
      refine ⟨hbody.errors, fun h hne => absurd (hlone h) hne, ?_⟩
      by_cases hbreak : (t.breaks && !g.errors.isEmpty) = true
      · rw [if_pos hbreak]
        rw [Bool.and_eq_true] at hbreak
        exact .inl ⟨by simpa using hbreak.2, .inr ⟨by simp [breaks, hbreak.1], rfl⟩⟩
      · rw [if_neg hbreak]
        refine .inr ⟨rfl, ?_⟩
        rw [hbody.errors.isEmpty_eq]
        exact (ha.insert t.valid _).mono fun n hn => hn.imp_right fun h => by simpa [declared] using h.2
  | settle before body settlement ih =>
    obtain ⟨g, hg, hf⟩ := bind_eq_ok.1 hf
    obtain ⟨G, hG, hF⟩ := bind_eq_ok.1 hF
    have hlone : ¬ lone := fun h => by simpa [weighs] using (hl h).2
    have hbody := ih hp.2.1 (m := m.part true) (M := M.part true) hm hM (fun h => absurd h hlone) ha
      (fun _ h => h.elim) hg hG M.failsFast_part_true
    have hx := exit_eq_onward hwI hp.2.1 hg hp.2.2.2 m.failsFast_part_true
    have hX := exit_eq_onward hs.inert hp.2.1 hG hp.2.2.2 M.failsFast_part_true
    simp only [hx] at hf
    simp only [hX] at hF
    rcases hbody.together with ⟨-, hend | ⟨-, hend⟩⟩ | ⟨-, hag⟩
    · rw [hx] at hend
      cases hend
    · rw [hx] at hend
      cases hend
    · exact Settlement.abridges hs hlone hbody hx hX
        (hag.mono fun n hn => hn.imp_right fun h => ⟨hx, h⟩) hp.2.2.1 hm hM hf hF
  | loop var along body ih =>
    obtain ⟨vs, hvs, hf⟩ := bind_eq_ok.1 hf
    obtain ⟨VS, hVS, hF⟩ := bind_eq_ok.1 hF
    rw [Setting.values_agree hs.values hs.inert ha hp.1, hVS] at hvs
    cases hvs
    obtain ⟨-, hvar, hfits⟩ := hp
    refine @rounds_abridges lone Γ.reads var hvar.1 body.breaks _ _ ?_ ?_ ?_ M hMF body.escapes ?_
      vs ρ P ha f F hf hF
    · intro v ρ P ha f F hf hF
      exact (ih hfits hm hM hl (ha.insert var v) (fun _ h => h.elim) hf hF hMF).weaken
        (fun _ hn => .inl hn) (List.nil_subset _) id
    · intro hb ρ f hf
      exact (agree_meaning hwI hfits hf).mono fun n hn =>
        ⟨.inl hn, fun hsets => by cases hb.symm.trans hsets.1⟩
    · intro hb P F hF
      exact (agree_meaning hs.inert hfits hF).mono fun n hn =>
        ⟨.inl hn, fun hsets => by cases hb.symm.trans hsets.1⟩
    · exact fun P F hF => ends_meaning hs.inert hfits hF
  | leave =>
    cases hf
    cases hF
    exact ⟨.refl_nil, fun _ hne => absurd rfl hne, .inr ⟨rfl, ha.mono fun n hn =>
      hn.resolve_right (by simp)⟩⟩
  | call invocation callee args =>
    obtain ⟨vs, hvs, hf⟩ := bind_eq_ok.1 hf
    obtain ⟨VS, hVS, hF⟩ := bind_eq_ok.1 hF
    obtain ⟨few, hfew, hf⟩ := bind_eq_ok.1 hf
    obtain ⟨all, hall, hF⟩ := bind_eq_ok.1 hF
    cases hf
    cases hF
    rw [Setting.evalItems_agree hs.values hs.inert ha hp.2.1, hVS] at hvs
    cases hvs
    have hcall := hs.call callee vs few all hfew hall
    refine ⟨hcall, fun h hne => ?_, ?_⟩
    · simp [(hl h).1, show few ≠ [] from hne]
    · by_cases hstop : (m.failsFast && !few.isEmpty) = true
      · have hfound : few ≠ [] := by simpa using (Bool.and_eq_true_iff.1 hstop).2
        exact .inl ⟨hfound, .inl (if_pos hstop)⟩
      · refine .inr ⟨?_, ha.mono fun n hn => hn.resolve_right (by simp [declared])⟩
        rw [if_neg hstop, hMF]
        rfl
  | schema s body ih =>
    exact (ih hp.1 hm hM hl ha hk hf hF hMF).weaken (fun _ => id) (List.nil_subset _) id
  | raw stmts => exact hp.elim

end Ways
end SchemaCompiler
