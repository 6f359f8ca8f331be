import SchemaCompiler.Proofs.Plan.Extension
import SchemaCompiler.Proofs.Plan.Values

/-!
# How plans go down into the data

A plan calls functions on the data of its own function, or on a proper part of that. What is on the
way to a call keeps the variables that hold such parts, and each step into the data leads from a
value that is not `null` to one that is less. So where a plan runs out of room for nested calls, one
of its calls does: one on the same data, or one on less.
-/
namespace SchemaCompiler

open Machine

variable {R : Name → Prop} {v u base key : Json} {along : Traversal} {vs : List Json} {w : Setting}
  {names : List Name} {var : Name} {Γ : Context}

/-! ## The height of data -/

mutual
def Json.height : Json → Nat
  | .array items => heightOfItems items
  | .object members => heightOfMembers members
  | _ => 0

def Json.heightOfItems : List Json → Nat
  | [] => 0
  | v :: rest => max (v.height + 1) (heightOfItems rest)

def Json.heightOfMembers : List (String × Json) → Nat
  | [] => 0
  | (_, v) :: rest => max (v.height + 1) (heightOfMembers rest)
end

namespace Json

def rank : Json → Nat
  | .null => 0
  | v => v.height + 1

theorem rank_le (v : Json) : v.rank ≤ v.height + 1 := by
  cases v <;> simp [rank]

theorem rank_of_ne_null (h : v ≠ .null) : v.rank = v.height + 1 := by
  cases v with
  | null => exact absurd rfl h
  | _ => rfl

theorem height_lt_of_mem_items {items : List Json} (h : v ∈ items) :
    v.height < heightOfItems items := by
  induction items with
  | nil => cases h
  | cons u rest ih =>
    rcases List.mem_cons.1 h with rfl | h
    · exact Nat.lt_of_lt_of_le (Nat.lt_succ_self _) (Nat.le_max_left _ _)
    · exact Nat.lt_of_lt_of_le (ih h) (Nat.le_max_right _ _)

theorem height_lt_of_mem_members {e : String × Json} {members : List (String × Json)}
    (h : e ∈ members) : e.2.height < heightOfMembers members := by
  induction members with
  | nil => cases h
  | cons u rest ih =>
    rcases List.mem_cons.1 h with rfl | h
    · exact Nat.lt_of_lt_of_le (Nat.lt_succ_self _) (Nat.le_max_left _ _)
    · exact Nat.lt_of_lt_of_le (ih h) (Nat.le_max_right _ _)

theorem height_lt_of_lookup {v : Json} (h : lookup base key = some v) : v.height < base.height := by
  unfold lookup at h
  split at h
  · exact height_lt_of_mem_members (Assoc.mem_of_get?_eq_some h)
  · exact height_lt_of_mem_members (Assoc.mem_of_get?_eq_some h)
  · obtain ⟨i, -, hi⟩ := Option.bind_eq_some_iff.1 h
    exact height_lt_of_mem_items (List.mem_of_getElem? hi)
  · cases h

theorem rank_lookup_lt (h : base ≠ .null) (key : Json) :
    ((lookup base key).getD .null).rank < base.rank := by
  rw [rank_of_ne_null h]
  cases hl : lookup base key with
  | none => exact Nat.succ_pos _
  | some v => exact Nat.lt_of_le_of_lt v.rank_le (Nat.succ_lt_succ (height_lt_of_lookup hl))

theorem rank_key_lt (h : key ∈ keysOf base) : key.rank < base.rank := by
  cases base with
  | object members =>
    obtain ⟨e, he, rfl⟩ := List.mem_map.1 h
    have hlt := height_lt_of_mem_members he
    have hrank : (Json.object members).rank = heightOfMembers members + 1 := rfl
    have hkey : (Json.string e.1).rank = 1 := rfl
    omega
  | _ => cases h

end Json

/-! ## Variables that hold parts of the data -/

namespace Context

/-- A variable that holds the data of the function or a part of it, whether or not it may be set. -/
def Spans (Γ : Context) (n : Name) : Prop := n = dataName ∨ Γ.below n

/-- The variables hold what the context says of them, in a function whose data is `v`. Those that
hold parts of the data can be read and are not set. -/
structure Sized (Γ : Context) (v : Json) (ρ : Locals) : Prop where
  sets : ∀ n, Γ.sets n → Γ.reads n
  kept : ∀ n, Γ.Spans n → Γ.Kept n
  known : ∀ n, Γ.solid n → Γ.reads n
  data : Assoc.get? dataName ρ = some v
  below : ∀ n, Γ.below n → ∃ u, Assoc.get? n ρ = some u ∧ u.rank < v.rank
  solid : ∀ n, Γ.solid n → Γ.Spans n → Assoc.get? n ρ ≠ some .null

namespace Sized

variable {Γ : Context} {v : Json} {ρ ρ' : Locals}

variable (h : Γ.Sized v ρ)

include h

theorem agree (ha : Agree Γ.Kept ρ' ρ) : Γ.Sized v ρ' where
  sets := h.sets
  kept := h.kept
  known := h.known
  data := by
    rw [ha _ (h.kept _ (.inl rfl))]
    exact h.data
  below := fun n hn => by
    rw [ha n (h.kept n (.inr hn))]
    exact h.below n hn
  solid := fun n hn hs => by
    rw [ha n (h.kept n hs)]
    exact h.solid n hn hs

theorem loose : Γ.loose.Sized v ρ :=
  ⟨h.sets, h.kept, h.known, h.data, h.below, h.solid⟩

theorem knowing (p : Plan) : (Γ.knowing p).Sized v ρ :=
  ⟨h.sets, h.kept, h.known, h.data, h.below, h.solid⟩

theorem marked (before : Name) : (Γ.marked before).Sized v ρ :=
  ⟨h.sets, h.kept, h.known, h.data, h.below, h.solid⟩

theorem frozenIf (b : Bool) : (Γ.frozenIf b).Sized v ρ :=
  ⟨fun n hn => h.sets n hn.2, fun n hn => ⟨(h.kept n hn).1, fun hs => (h.kept n hn).2 hs.2⟩,
    h.known, h.data, h.below, h.solid⟩

theorem frozen : Γ.frozen.Sized v ρ :=
  ⟨fun _ hn => hn.elim, fun n hn => ⟨(h.kept n hn).1, id⟩, h.known, h.data, h.below,
    h.solid⟩

theorem declare (hn : ∀ n ∈ names, ¬ Γ.Fixed n) :
    (Γ.declare names).Sized v ρ where
  sets := fun n hs => hs.imp_left (h.sets n)
  kept := fun n hs => by
    have hkept := h.kept n hs
    exact ⟨.inl hkept.1, fun hor => hor.elim hkept.2 fun hmem => hn n hmem (.inr hkept)⟩
  known := fun n hs => .inl (h.known n hs)
  data := h.data
  below := h.below
  solid := h.solid

theorem firm (hn : ∀ n ∈ names, Γ.reads n ∧ (Γ.Spans n → Assoc.get? n ρ ≠ some .null)) :
    (Γ.firm names).Sized v ρ where
  sets := h.sets
  kept := h.kept
  known := fun n hs => hs.elim (h.known n) fun hmem => (hn n hmem).1
  data := h.data
  below := h.below
  solid := fun n hs hspan => hs.elim (fun hs => h.solid n hs hspan) fun hmem => (hn n hmem).2 hspan

theorem get? {n : Name} (hn : Γ.Spans n) : ∃ u, Assoc.get? n ρ = some u ∧ u.rank ≤ v.rank := by
  rcases hn with rfl | hn
  · exact ⟨v, h.data, Nat.le_refl _⟩
  · obtain ⟨u, hu, hlt⟩ := h.below n hn
    exact ⟨u, hu, Nat.le_of_lt hlt⟩

theorem rank_descent_lt {d : Descent} (hd : d.Fits Γ)
    (hu : w.eval ρ (.index (.var d.base) d.key) = .ok u) : u.rank < v.rank := by
  obtain ⟨base, hbase, hle⟩ := h.get? hd.base.2.2
  have hnull : base ≠ .null := fun heq => h.solid d.base hd.solid hd.base.2.2 (heq ▸ hbase)
  rw [Setting.eval_index] at hu
  obtain ⟨key, -, hu⟩ := bind_eq_ok.1 hu
  rw [Setting.eval_var_of_get? w hbase] at hu
  cases hu
  exact Nat.lt_of_lt_of_le (Json.rank_lookup_lt hnull key) hle

theorem inTrial {t : Trial} {ρ' : Locals}
    (hd : ∀ d ∈ t.descent, d.Fits Γ ∧ d.name ≠ t.before) (he : t.enter w ρ = .ok ρ') :
    (Γ.inTrial t).Sized v ρ' := by
  have hold : Agree Γ.reads ρ' ρ := Trial.agree_enter (fun d hd' => (hd d hd').1.fresh.1) he
  have hnew : ∀ d ∈ t.descent, ∃ u, Assoc.get? d.name ρ' = some u ∧ u.rank < v.rank := by
    intro d hdescent
    unfold Trial.enter at he
    rw [hdescent] at he
    obtain ⟨u, hu, he⟩ := bind_eq_ok.1 he
    cases he
    exact ⟨u, Assoc.get?_insert_self _ _ _, h.rank_descent_lt (hd d hdescent).1 hu⟩
  constructor
  case sets => exact fun _ hn => hn.elim
  case kept =>
    rintro n (rfl | hn | hn)
    · exact ⟨.inl (h.kept _ (.inl rfl)).1, id⟩
    · exact ⟨.inl (h.kept n (.inr hn)).1, id⟩
    · exact ⟨.inr hn, id⟩
  case known => exact fun n hn => .inl (h.known n hn)
  case data =>
    rw [hold _ (h.kept _ (.inl rfl)).1]
    exact h.data
  case below =>
    rintro n (hn | ⟨d, hdescent, rfl⟩)
    · rw [hold _ (h.kept _ (.inr hn)).1]
      exact h.below n hn
    · exact hnew d hdescent
  case solid =>
    rintro n hs (rfl | hn | ⟨d, hdescent, rfl⟩)
    · rw [hold _ (h.kept _ (.inl rfl)).1]
      exact h.solid _ hs (.inl rfl)
    · rw [hold _ (h.kept _ (.inr hn)).1]
      exact h.solid n hs (.inr hn)
    · exact absurd (h.known d.name hs) (hd d hdescent).1.fresh.1

theorem inLoop (hvar : Γ.Fresh var)
    (hfirm : ∀ n ∈ along.firms, Γ.reads n ∧ (Γ.Spans n → Assoc.get? n ρ ≠ some .null))
    (hu : along.Parts Γ → u.rank < v.rank) :
    (Γ.inLoop var along).Sized v (Assoc.insert var u ρ) := by
  have hold : Agree Γ.reads _ ρ := (Agree.refl _ _).insert_left hvar.1 u
  constructor
  case sets => exact fun n hn => .inl (h.sets n hn)
  case kept =>
    rintro n (rfl | hn | ⟨rfl, -⟩)
    · exact ⟨.inl (h.kept _ (.inl rfl)).1, (h.kept _ (.inl rfl)).2⟩
    · exact ⟨.inl (h.kept _ (.inr hn)).1, (h.kept _ (.inr hn)).2⟩
    · exact ⟨.inr rfl, fun hs => hvar.1 (h.sets _ hs)⟩
  case known =>
    exact fun n hn => .inl (hn.elim (h.known n) fun hmem => (hfirm n hmem).1)
  case data =>
    rw [hold _ (h.kept _ (.inl rfl)).1]
    exact h.data
  case below =>
    rintro n (hn | ⟨rfl, hparts⟩)
    · rw [hold _ (h.kept _ (.inr hn)).1]
      exact h.below n hn
    · exact ⟨u, Assoc.get?_insert_self _ _ _, hu hparts⟩
  case solid =>
    have hfirm' := h.firm hfirm
    intro n hs hn
    have hreads : Γ.reads n := hs.elim (h.known n) fun hmem => (hfirm n hmem).1
    rw [hold n hreads]
    refine hfirm'.solid n hs ?_
    rcases hn with rfl | hn | ⟨rfl, -⟩
    · exact .inl rfl
    · exact .inr hn
    · exact absurd hreads hvar.1

end Sized
end Context

section Firm

variable {w : Setting} {ρ : Locals} {n : Name}

theorem Setting.ne_null_of_len (h : w.eval ρ (.len (.var n)) = .ok v) :
    Assoc.get? n ρ ≠ some .null := by
  intro hn
  rw [eval_len, eval_var_of_get? w hn] at h
  cases h

theorem Expr.ne_null_of_firms {e : Expr} (hr : e.Within R)
    (h : w.test ρ e = .ok true) (hn : n ∈ e.firms) : R n ∧ Assoc.get? n ρ ≠ some .null := by
  obtain ⟨v, hv, htrue⟩ := map_eq_ok.1 h
  unfold firms at hn
  split at hn
  · obtain rfl := List.mem_singleton.1 hn
    refine ⟨hr.1, fun hnull => ?_⟩
    rw [Setting.eval_has, Setting.eval_var_of_get? w hnull] at hv
    obtain ⟨k, -, hv⟩ := bind_eq_ok.1 hv
    cases hv
    have hnone : lookup .null k = none := by cases k <;> rfl
    simp [hnone, truthy] at htrue
  · obtain rfl := List.mem_singleton.1 hn
    refine ⟨hr.1, ?_⟩
    rw [Setting.eval_binary] at hv
    obtain ⟨x, hx, -⟩ := bind_eq_ok.1 hv
    exact Setting.ne_null_of_len hx
  · cases hn

theorem Traversal.ne_null_of_firms (hr : along.Within R) (h : along.values w ρ = .ok vs) (hne : vs ≠ []) (hn : n ∈ along.firms) :
    R n ∧ Assoc.get? n ρ ≠ some .null := by
  unfold firms at hn
  split at hn
  · obtain rfl := List.mem_singleton.1 hn
    refine ⟨hr.2, ?_⟩
    obtain ⟨i, -, h⟩ := bind_eq_ok.1 h
    obtain ⟨j, hj, -⟩ := bind_eq_ok.1 h
    obtain ⟨v, hv, -⟩ := bind_eq_ok.1 hj
    exact Setting.ne_null_of_len hv
  · obtain rfl := List.mem_singleton.1 hn
    refine ⟨hr, fun hnull => ?_⟩
    obtain ⟨v, hv, rfl⟩ := map_eq_ok.1 h
    rw [Setting.eval_var_of_get? w hnull] at hv
    cases hv
    exact hne rfl
  · cases hn

/-- What a loop goes through is less than the data, where it goes through parts of that. -/
theorem Traversal.rank_lt_of_parts (hs : Γ.Sized v ρ)
    (hp : along.Parts Γ) (h : along.values w ρ = .ok vs) (hu : u ∈ vs) : u.rank < v.rank := by
  cases along with
  | keys object =>
    cases object with
    | var m =>
      obtain ⟨base, hbase, hle⟩ := hs.get? (show Γ.Holds m from hp).2.2
      obtain ⟨x, hx, rfl⟩ := map_eq_ok.1 h
      rw [Setting.eval_var_of_get? w hbase] at hx
      cases hx
      exact Nat.lt_of_lt_of_le (Json.rank_key_lt hu) hle
    | _ => exact hp.elim
  | _ => exact hp.elim

end Firm

/-! ## Room for nested calls -/

def Shallow {α : Type} (r : Except Abort α) : Prop := ∀ a, r = .error a → ¬ a.IsDeep

namespace Shallow

variable {α β : Type} {r : Except Abort α} {w : Setting} {ρ : Locals}

theorem ok (a : α) : Shallow (.ok a) := fun _ h => nomatch h

theorem bind (h : Shallow r) {f : α → Except Abort β} (hf : ∀ a, r = .ok a → Shallow (f a)) :
    Shallow (r >>= f) := by
  cases r with
  | error a => exact fun b hb => by cases hb; exact h a rfl
  | ok a => exact hf a rfl

theorem map (h : Shallow r) (f : α → β) : Shallow (r.map f) := by
  cases r with
  | error a => exact fun b hb => by cases hb; exact h a rfl
  | ok a => exact ok _

theorem of_lifts {x y : Exec α} (h : Lifts x y) (s : State) : Shallow (ran x s).1 := by
  have hs := h s
  rcases hr : ran x s with ⟨a | v, t⟩
  · rw [hr] at hs
    exact fun b hb => by cases hb; exact hs
  · exact ok v

theorem eval (e : Expr) : Shallow (w.eval ρ e) := of_lifts (lifts_eval (.refl w.values) e) _

theorem evalItems (items : List Expr) : Shallow (w.evalItems ρ items) :=
  of_lifts (lifts_evalItems (.refl w.values) items) _

theorem quietly {stmts : List Stmt} (hq : Stmt.QuietBlock R stmts) :
    Shallow (w.quietly stmts ρ) := by
  have hs := of_lifts (lifts_execBlock (.refl w.values) stmts hq) ⟨[], ρ⟩
  unfold Setting.quietly
  rcases hr : ran (execBlock (silentEnv w.values) stmts) ⟨[], ρ⟩ with ⟨a | flow, s⟩
  · rw [hr] at hs
    exact fun b hb => by cases hb; exact hs a rfl
  · cases flow <;> exact ok _

theorem test (e : Expr) : Shallow (w.test ρ e) := (eval e).map _

theorem index (e : Expr) : Shallow (w.index ρ e) := (eval e).bind fun v _ => by
  cases asIndex v with
  | error fault => exact fun a ha => by cases ha; exact id
  | ok i => exact ok i

theorem report (m : Mode) (record : Expr) (breaks : Bool) :
    Shallow (w.report m record breaks ρ) := (eval record).map _

theorem traversal (along : Traversal) : Shallow (along.values w ρ) := by
  cases along with
  | range start stop => exact (index start).bind fun _ _ => (index stop).bind fun _ _ => ok _
  | keys object | items object => exact (eval object).map _

theorem enter (t : Trial) : Shallow (t.enter w ρ) := by
  unfold Trial.enter
  split
  · exact ok _
  · exact (eval _).bind fun _ _ => ok _

theorem settlement (m : Mode) (f : Finding) (s : Settlement) : Shallow (s.meaning w m f) := by
  cases s with
  | drop => exact ok _
  | dropIf condition record =>
    refine (test condition).bind fun b _ => ?_
    split
    · exact ok _
    · exact (report m record false).map _
  | dropUnless condition record =>
    refine (test condition).bind fun b _ => ?_
    split
    · exact (report m record false).map _
    · exact ok _

theorem andThen {f : Finding} {next : Locals → Except Abort Finding}
    (h : f.exit = .onward → Shallow (next f.locals)) : Shallow (f.andThen next) := by
  by_cases hx : f.exit = .onward
  · rw [Finding.andThen_onward hx]
    exact (h hx).map _
  · rw [Finding.andThen_ended hx]
    exact ok _

theorem rounds {body : Locals → Except Abort Finding} {P : Locals → Prop}
    (hbody : ∀ v ∈ vs, ∀ ρ, P ρ → Shallow (body (Assoc.insert var v ρ)))
    (hkeep : ∀ v ∈ vs, ∀ ρ f, P ρ → body (Assoc.insert var v ρ) = .ok f → P f.locals) (hρ : P ρ) :
    Shallow (SchemaCompiler.rounds var body vs ρ) := by
  induction vs generalizing ρ with
  | nil => exact ok _
  | cons v vs ih =>
    refine (hbody v (by simp) ρ hρ).bind fun f hf => ?_
    cases f.exit with
    | onward =>
      exact (ih (fun u hu => hbody u (by simp [hu])) (fun u hu => hkeep u (by simp [hu]))
        (hkeep v (by simp) ρ f hρ hf)).map _
    | loop | function => exact ok _

end Shallow

namespace Plan

def directCallees : Plan → List Name
  | call _ callee (.var n :: _) => if n = dataName then [callee] else []
  | seq first second => first.directCallees ++ second.directCallees
  | branch _ yes no => yes.directCallees ++ no.directCallees
  | demand _ _ rest => rest.directCallees
  | typed _ _ body => body.directCallees
  | next _ first second => first.directCallees ++ second.directCallees
  | trial _ body => body.directCallees
  | settle _ body _ => body.directCallees
  | loop _ _ body => body.directCallees
  | schema _ body => body.directCallees
  | _ => []

/-- Where a plan runs out of room for nested calls, a call does that is on the same data or on
less. -/
theorem shallow_meaning (hw : Inert w.values) {callable : Name → Bool → Prop} {p : Plan}
    (hdirect : ∀ callee ∈ p.directCallees, ∀ rest, Shallow (w.call callee (v :: rest)))
    (hbelow : ∀ callee u rest, u.rank < v.rank → Shallow (w.call callee (u :: rest)))
    (hp : p.Fits callable Γ) {ρ : Locals} (hs : Γ.Sized v ρ) (m : Mode) :
    Shallow (p.meaning w m ρ) := by
  induction p generalizing Γ m ρ with
  | nothing => exact .ok _
  | report record breaks => exact .report m record breaks
  | seq first second ihf ihs =>
    refine (ihf (fun c hc => hdirect c (List.mem_append_left _ hc)) hp.1 hs.loose m).bind
      fun f hf => .andThen fun _ => ?_
    have hafter : Γ.loose.Sized v f.locals := hs.loose.agree (agree_meaning hw hp.1 hf)
    exact ihs (fun c hc => hdirect c (List.mem_append_right _ hc)) hp.2
      (hafter.declare fun n hn => not_fixed_of_mem_declared hp.1 hn) m
  | quiet stmts => exact .quietly hp.1
  | branch condition yes no ihy ihn =>
    refine (Shallow.test condition).bind fun b hb => ?_
    cases b with
    | true =>
      refine ihy (fun c hc => hdirect c (List.mem_append_left _ hc)) hp.2.1
        (hs.loose.firm fun n hn => ?_) m
      obtain ⟨hread, hnull⟩ := Expr.ne_null_of_firms hp.1 hb hn
      exact ⟨hread, fun _ => hnull⟩
    | false => exact ihn (fun c hc => hdirect c (List.mem_append_right _ hc)) hp.2.2 hs.loose m
  | demand condition record rest ih =>
    have hrest : ∀ {ρ}, Γ.Sized v ρ → Shallow _ := fun hρ =>
      ih hdirect hp.2.2.1 hρ.loose.frozen m
    refine (Shallow.test condition).bind fun b _ => ?_
    cases b with
    | true =>
      refine (Shallow.report m record false).bind fun f hf => ?_
      obtain ⟨r, -, rfl⟩ := map_eq_ok.1 hf
      split
      · exact .andThen fun _ => hrest hs
      · exact .ok _
    | false => exact hrest hs
  | typed pinned test body ih =>
    simp only [meaning]
    split
    · exact ih hdirect hp.2.2 hs m
    · refine (Shallow.test test).bind fun b _ => ?_
      cases b with
      | true => exact ih hdirect hp.2.2 hs m
      | false => exact .ok _
  | next before first second ihf ihs =>
    refine (ihf (fun c hc => hdirect c (List.mem_append_left _ hc)) hp.2.1 hs.frozen m).bind
      fun f hf => .andThen fun _ => ?_
    split
    · refine ihs (fun c hc => hdirect c (List.mem_append_right _ hc)) hp.2.2.1 ?_ m
      exact (hs.frozen.agree (agree_meaning hw hp.2.1 hf)).knowing first
    · exact .ok _
  | trial t body ih =>
    refine (Shallow.enter t).bind fun inner hin => ?_
    exact (ih hdirect hp.2.2.2.1 (hs.inTrial hp.2.2.1 hin) _).bind fun _ _ => .ok _
  | settle before body settlement ih =>
    refine (ih hdirect hp.2.1 (hs.marked before) _).bind fun f _ => ?_
    cases f.exit with
    | onward => exact .settlement m f settlement
    | _ => exact .ok _
  | loop var along body ih =>
    obtain ⟨hover, hvar, hbody⟩ := hp
    have hstart := hs.frozenIf body.breaks
    refine (Shallow.traversal along).bind fun vs hvs => ?_
    by_cases hne : vs = []
    · subst hne
      exact .ok _
    -- each round starts from variables that hold what they held before the loop
    refine Shallow.rounds (P := fun ρ => (Γ.frozenIf body.breaks).Sized v ρ ∧
      ∀ n ∈ along.firms, Γ.reads n ∧ (Γ.Spans n → Assoc.get? n ρ ≠ some .null)) ?_ ?_
      ⟨hstart, fun n hn => ?_⟩
    · intro u hu ρ' hρ'
      exact ih hdirect hbody (hρ'.1.inLoop hvar hρ'.2 fun hparts =>
        Traversal.rank_lt_of_parts hstart hparts hvs hu) m
    · intro u hu ρ' f hρ' hf
      have hagree : Agree (Γ.frozenIf body.breaks).Kept f.locals ρ' := by
        refine ((agree_meaning hw hbody hf).mono fun n hn => ⟨.inl hn.1, hn.2⟩).trans ?_
        exact (Agree.refl _ _).insert_left (fun hk => hvar.1 hk.1) u
      refine ⟨hρ'.1.agree hagree, fun n hn => ⟨(hρ'.2 n hn).1, fun hspan => ?_⟩⟩
      rw [hagree n (hstart.kept n hspan)]
      exact (hρ'.2 n hn).2 hspan
    · obtain ⟨hread, hnull⟩ := Traversal.ne_null_of_firms hover hvs hne hn
      exact ⟨hread, fun _ => hnull⟩
  | leave => exact .ok _
  | call invocation callee args =>
    obtain ⟨-, -, -, n, rest, rfl, hn⟩ := hp
    refine (Shallow.evalItems _).bind fun vs hvs => Shallow.bind ?_ fun _ _ => .ok _
    obtain ⟨u, hu, hvs⟩ := bind_eq_ok.1 (Setting.evalItems_cons w ρ _ _ ▸ hvs)
    obtain ⟨others, -, hvs⟩ := bind_eq_ok.1 hvs
    cases hvs
    rcases hn.2.2 with rfl | hn
    · rw [Setting.eval_var_of_get? w hs.data] at hu
      cases hu
      exact hdirect callee (by simp [directCallees]) others
    · obtain ⟨part, hpart, hlt⟩ := hs.below n hn
      rw [Setting.eval_var_of_get? w hpart] at hu
      cases hu
      exact hbelow callee _ others hlt
  | schema s body ih => exact ih hdirect hp.1 hs m
  | raw stmts => exact hp.elim

end Plan
end SchemaCompiler
