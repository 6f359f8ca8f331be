import SchemaCompiler.Proofs.Plan.Blueprint
import SchemaCompiler.Proofs.Program.Uses

/-!
# The names in the code of a plan

A plan that fits a context gives code that uses what can be read there, what can be called, and what
the code itself brings into being. What it brings into being has names of its own: none of them is a
name that can be read in the context and not be set.
-/
namespace SchemaCompiler

open Stmt

variable {n : Name} {R K : Name → Prop}

theorem Expr.Within.names {e : Expr} (h : e.Within R) : ∀ n ∈ e.names, R n := by
  induction e using Expr.induction_parts with
  | h e ih =>
    intro n hn
    rcases Expr.mem_names_iff_parts.1 hn with rfl | ⟨p, hp, hn⟩
    · exact h
    · exact ih p hp (h.part hp) n hn

/-! ## Quiet statements -/

namespace Stmt

mutual
theorem mem_targets_of_mem_bound {R : Name → Prop} : (s : Stmt) → Quiet R s → n ∈ bound s → n ∈ targets s
  | .declare _ _ _, _, h => h
  | .branch _ yes no, hq, h => List.mem_append.2 ((List.mem_append.1 h).imp
    (mem_targetsOf_of_mem_boundOf yes hq.2.1) (mem_targetsOf_of_mem_boundOf no hq.2.2))
  | .forRange _ _ _ body, hq, h => List.mem_cons.2 ((List.mem_cons.1 h).imp id
    (mem_targetsOf_of_mem_boundOf body hq.2.2))
  | .forKeys _ _ body, hq, h | .forEach _ _ body, hq, h =>
    List.mem_cons.2 ((List.mem_cons.1 h).imp id
    (mem_targetsOf_of_mem_boundOf body hq.2))
  | .assign _ _, _, h => by simp [bound] at h
  | .leave, _, h => by simp [bound] at h

theorem mem_targetsOf_of_mem_boundOf {R : Name → Prop} :
    (stmts : List Stmt) → QuietBlock R stmts → n ∈ boundOf stmts → n ∈ targetsOf stmts
  | [], _, h => by simp [boundOf] at h
  | s :: rest, hq, h => List.mem_append.2 ((List.mem_append.1 h).imp
    (mem_targets_of_mem_bound s hq.1) (mem_targetsOf_of_mem_boundOf rest hq.2))
end

theorem declared_subset_bound (s : Stmt) : declared s ⊆ bound s := by
  cases s <;> simp [declared, bound]

mutual
theorem Quiet.known {R : Name → Prop} : (s : Stmt) → Quiet R s → Known R [s]
  | .declare m none _, _ => by simp [Known, namesOfBlock, names, boundOf, bound]
  | .declare m (some e) _, hq => .declare (Expr.Within.names hq)
  | .assign m e, hq => by
    intro n h
    simp only [namesOfBlock, names, List.append_nil, List.mem_cons] at h
    rcases h with rfl | h
    · exact .inl hq.1
    · exact .inl (hq.2.names n h)
  | .branch c yes no, hq => .branch hq.1.names (QuietBlock.known yes hq.2.1)
    (QuietBlock.known no hq.2.2)
  | .forRange var start stop body, hq => .around rfl rfl
    (fun n h => (List.mem_append.1 h).elim (hq.1.names n) (hq.2.1.names n))
    (QuietBlock.known body hq.2.2)
  | .forKeys var object body, hq | .forEach var object body, hq =>
    .around rfl rfl hq.1.names (QuietBlock.known body hq.2)
  | .leave, _ => by simp [Known, namesOfBlock, names]

theorem QuietBlock.known {R : Name → Prop} : (stmts : List Stmt) → QuietBlock R stmts → Known R stmts
  | [], _ => .nil
  | s :: rest, hq => (Quiet.known s hq.1).cons
    ((QuietBlock.known rest hq.2).mono fun _ => Or.imp id fun h => declared_subset_bound s h)
end

end Stmt

/-! ## Plans -/

namespace Plan

variable {callable : Name → Bool → Prop} {Γ : Context} {p : Plan}

theorem known_leaving (m : Mode) : Known K [m.leaving] := by
  unfold Mode.leaving Mode.verdict
  split <;> simp [Known, namesOfBlock, names, Expr.names, Expr.namesOfMembers, Expr.bool]

theorem known_reporting (m : Mode) {record : Expr} (h : ∀ n ∈ record.names, K n) :
    Known K (m.reporting record) := by
  refine .cons (fun n hn => .inl (h n (by simpa [namesOfBlock, names] using hn))) ?_
  split
  · exact known_leaving m
  · exact .nil

variable (before : Name)

theorem known_mark : Known K [.mark before] :=
  .declare (by simp [Expr.names])

theorem bound_mark : bound (.mark before) = [before] := rfl

theorem names_unmoved : (Expr.unmoved before).names = [before] := rfl

theorem known_leavingIf (m : Mode) {condition : Expr} (h : ∀ n ∈ condition.names, K n) :
    Known K (m.leavingIf condition) := by
  unfold Mode.leavingIf
  split
  · exact .branch h (known_leaving m) .nil
  · exact .nil

theorem mem_boundOf_of_mem_declared (m : Mode) (h : n ∈ p.declared) : n ∈ boundOf (p.code m) := by
  induction p generalizing m with
  | quiet stmts =>
    simp only [declared, declaredOf] at h
    induction stmts with
    | nil => cases h
    | cons s rest ih =>
      rw [List.flatMap_cons, List.mem_append] at h
      exact List.mem_append.2 (h.imp (fun h => declared_subset_bound s h) ih)
  | seq first second ihf ihs =>
    rw [code, boundOf_append]
    exact List.mem_append.2 ((List.mem_append.1 h).imp (ihf m) (ihs m))
  | trial t body ih =>
    simp only [declared, List.mem_singleton] at h
    simp [code, boundOf_append, boundOf, bound, h]
  | settle before body settlement ih =>
    simp only [code, boundOf, boundOf_append, List.mem_append]
    exact .inr (.inl (ih (m.part true) h))
  | _ => cases h

def Usable (callable : Name → Bool → Prop) (Γ : Context) (n : Name) : Prop :=
  Γ.reads n ∨ Γ.marks n ∨ ∃ isAsync, callable n isAsync

theorem known_settlement (m : Mode) {before : Name} (hb : K before) {s : Settlement}
    (hs : s.Within R) (hr : ∀ n, R n → K n) : Known K (s.code m before) := by
  have hreset : Known K [.resetErrors (.var before)] := by
    intro n hn
    exact .inl (List.mem_singleton.1 hn ▸ hb)
  cases s with
  | drop => exact hreset
  | dropIf condition record =>
    exact .branch (hs.1.mono hr).names hreset (known_reporting m (hs.2.mono hr).names)
  | dropUnless condition record =>
    exact .branch (hs.1.mono hr).names (known_reporting m (hs.2.mono hr).names) hreset

theorem known_invocation (m : Mode) {call : Expr} (hc : ∀ n ∈ call.names, K n) (i : Invocation) :
    Known K (i.code m call) := by
  cases i with
  | plain valid =>
    refine .cons (.declare hc) (known_leavingIf m fun n hn => .inr ?_)
    simpa [bound] using List.mem_singleton.1 (Expr.mem_names_negate hn)
  | awaited before caught =>
    refine .cons (known_mark before) (.cons ?_ (known_leavingIf m fun n hn => .inl (.inr ?_)))
    · intro n hn
      simp only [namesOfBlock, names, Expr.names, List.mem_append,
        List.mem_cons, List.not_mem_nil, or_false] at hn
      simp only [boundOf, bound, List.append_nil, List.nil_append, List.mem_cons, List.not_mem_nil,
        or_false]
      rcases hn with hn | rfl | hn | rfl
      · exact .inl (.inl (hc n hn))
      · exact .inr rfl
      · exact .inr (List.mem_singleton.1 (Expr.mem_names_negate hn))
      · exact .inr rfl
    · simpa [names_unmoved, bound_mark] using Expr.mem_names_negate hn

theorem marks_of_node_none (h : Γ.node = none) (b : Name) (hb : Γ.node = some b) : Γ.marks b := by
  rw [h] at hb
  cases hb

/-- The code of a plan uses what can be read, what counts errors, what can be called, and what it
brings into being itself. -/
theorem Fits.known (hp : p.Fits callable Γ) (hnode : ∀ b, Γ.node = some b → Γ.marks b) (m : Mode) :
    Known (Usable callable Γ) (p.code m) := by
  have hreads : ∀ {Δ : Context} {e : Expr}, e.Within Δ.reads → ∀ n ∈ e.names, Usable callable Δ n :=
    fun h n hn => .inl (h.names n hn)
  induction p generalizing Γ m with
  | nothing => exact .nil
  | report record breaks =>
    refine .append_of (known_reporting m (hreads hp)) ?_
    unfold Mode.breaking
    split
    · split <;> simp [Known, namesOfBlock, names]
    · exact .nil
  | seq first second ihf ihs =>
    refine (ihf hp.1 (marks_of_node_none rfl) m).append ((ihs hp.2 (marks_of_node_none rfl) m).mono ?_)
    rintro n ((hr | hd) | hm | hc)
    · exact .inl (.inl hr)
    · exact .inr (mem_boundOf_of_mem_declared m hd)
    · exact .inl (.inr (.inl hm))
    · exact .inl (.inr (.inr hc))
  | quiet stmts => exact (QuietBlock.known stmts hp.1).mono fun _ => .inl
  | branch condition yes no ihy ihn =>
    exact .branch (hreads hp.1) (ihy hp.2.1 (marks_of_node_none rfl) m)
      (ihn hp.2.2 (marks_of_node_none rfl) m)
  | demand condition record rest ih =>
    have hrest := ih hp.2.2.1 (marks_of_node_none rfl) m
    have hreport := known_reporting m (hreads hp.2.1)
    unfold code
    split
    · exact .cons (.branch (hreads hp.1) hreport .nil) (hrest.mono fun _ => .inl)
    · exact .branch (hreads hp.1) hreport hrest
  | typed pinned test body ih =>
    have hbody := ih hp.2.2 hnode m
    unfold code
    split
    · exact hbody
    · exact .branch (hreads hp.1) hbody .nil
  | next before first second ihf ihs =>
    have hfirst := ihf hp.2.1 hnode m
    have hsecond := ihs hp.2.2.1 hnode m
    unfold code
    split
    · exact hfirst.append_of hsecond
    · refine hfirst.append_of (.branch (fun n hn => ?_) hsecond .nil)
      obtain rfl : n = before := List.mem_singleton.1 hn
      exact .inr (.inl (hnode n hp.1))
  | trial t body ih =>
    obtain ⟨-, -, hdescent, hbody, -⟩ := hp
    refine .cons (known_mark t.before) (.append (.append ?_ ((ih hbody ?_ _).mono ?_)) (.cons ?_ ?_))
    · cases hd : t.descent with
      | none => exact .nil
      | some d =>
        obtain ⟨hfits, -⟩ := hdescent d hd
        refine .declare fun n hn => .inl ?_
        rcases List.mem_cons.1 hn with rfl | hn
        · exact .inl hfits.base.1
        · exact .inl (hfits.key.names n hn)
    · rintro _ ⟨⟩
      exact .inr rfl
    · rintro n ((hr | ⟨d, hd, rfl⟩) | (hm | rfl) | hc)
      · exact .inl (.inl (.inl hr))
      · simp [Option.mem_def.1 hd, Descent.stmt, boundOf, bound]
      · exact .inl (.inl (.inr (.inl hm)))
      · exact .inl (.inr (by simp [bound_mark]))
      · exact .inl (.inl (.inr (.inr hc)))
    · refine .declare fun n hn => .inl (.inr ?_)
      simpa [names_unmoved, bound_mark] using hn
    · split
      · refine .branch (fun n hn => .inr ?_) ?_ .nil
        · simpa [bound] using List.mem_singleton.1 (Expr.mem_names_negate hn)
        · simp [Known, namesOfBlock, names]
      · exact .nil
  | settle before body settlement ih =>
    obtain ⟨-, hbody, hs, -⟩ := hp
    refine .cons (known_mark before) (.append ((ih hbody (marks_of_node_none rfl) (m.part true)).mono ?_)
      (known_settlement m (.inl (.inr (by simp [bound_mark]))) hs ?_))
    · rintro n (hr | (hm | rfl) | hc)
      · exact .inl (.inl hr)
      · exact .inl (.inr (.inl hm))
      · exact .inr (by simp [bound_mark])
      · exact .inl (.inr (.inr hc))
    · rintro n (hr | hd)
      · exact .inl (.inl (.inl hr))
      · exact .inr (mem_boundOf_of_mem_declared _ hd)
  | loop var along body ih =>
    have hbody : Known (fun n => Usable callable Γ n ∨ n = var) (body.code m) := by
      refine (ih hp.2.2 (marks_of_node_none rfl) m).mono ?_
      rintro n ((hr | rfl) | hm | hc)
      · exact .inl (.inl hr)
      · exact .inr rfl
      · exact .inl (.inr (.inl hm))
      · exact .inl (.inr (.inr hc))
    cases along with
    | range start stop =>
      exact .around rfl rfl (fun n hn => (List.mem_append.1 hn).elim (hreads hp.1.1 n)
        (hreads hp.1.2 n)) hbody
    | keys object | items object => exact .around rfl rfl (hreads hp.1) hbody
  | leave => simp [code, Known, namesOfBlock, names]
  | call invocation callee args =>
    refine known_invocation m (fun n hn => ?_) invocation
    rcases List.mem_cons.1 hn with rfl | hn
    · exact .inr (.inr ⟨_, hp.2.2.1⟩)
    · obtain ⟨arg, harg, hn⟩ := Expr.mem_namesOfItems.1 hn
      exact .inl (Expr.Within.names (Expr.withinItems_iff.1 hp.2.1 arg harg) n hn)
  | schema s body ih => exact ih hp.1 hnode m
  | raw stmts => exact hp.elim

@[simp] theorem boundOf_reporting (m : Mode) (record : Expr) : boundOf (m.reporting record) = [] := by
  unfold Mode.reporting Mode.leaving
  split
  · split <;> rfl
  · rfl

@[simp] theorem boundOf_leavingIf (m : Mode) (condition : Expr) :
    boundOf (m.leavingIf condition) = [] := by
  unfold Mode.leavingIf Mode.leaving
  split
  · split <;> rfl
  · rfl

@[simp] theorem boundOf_settlement (m : Mode) (before : Name) (s : Settlement) :
    boundOf (s.code m before) = [] := by
  cases s <;> simp [Settlement.code, boundOf, bound]

/-- What the code of a plan brings into being has none of the names that are there to stay. -/
theorem Fits.bound_apart (hp : p.Fits callable Γ) (m : Mode) (hn : n ∈ boundOf (p.code m)) :
    ¬ Γ.Kept n := by
  induction p generalizing Γ m with
  | nothing => cases hn
  | report record breaks =>
    rw [code, boundOf_append, boundOf_reporting] at hn
    unfold Mode.breaking at hn
    split at hn
    · split at hn <;> cases hn
    · cases hn
  | seq first second ihf ihs =>
    rintro ⟨hr, hs⟩
    rcases List.mem_append.1 (boundOf_append _ _ ▸ hn) with hn | hn
    · exact ihf hp.1 m hn ⟨hr, hs⟩
    · refine ihs hp.2 m hn ⟨.inl hr, ?_⟩
      rintro (hs' | hd)
      · exact hs hs'
      · exact not_fixed_of_mem_declared hp.1 hd (.inr ⟨hr, hs⟩)
  | quiet stmts =>
    exact fun hk => hp.2 n (mem_targetsOf_of_mem_boundOf stmts hp.1 hn) (.inr hk)
  | branch condition yes no ihy ihn =>
    simp only [code, boundOf, bound, List.append_nil, List.mem_append] at hn
    exact hn.elim (ihy hp.2.1 m) (ihn hp.2.2 m)
  | demand condition record rest ih =>
    have hrest : n ∈ boundOf (rest.code m) := by
      unfold code at hn
      split at hn
      · simpa [boundOf, bound] using hn
      · simpa [boundOf, bound] using hn
    exact fun hk => ih hp.2.2.1 m hrest ⟨hk.1, id⟩
  | typed pinned test body ih =>
    refine ih hp.2.2 m ?_
    unfold code at hn
    split at hn
    · exact hn
    · simpa [boundOf, bound] using hn
  | next before first second ihf ihs =>
    intro hk
    have hor : n ∈ boundOf (first.code m) ∨ n ∈ boundOf (second.code m) := by
      unfold code at hn
      split at hn
      · simpa [boundOf_append] using hn
      · simpa [boundOf_append, boundOf, bound] using hn
    exact hor.elim (fun hn => ihf hp.2.1 m hn ⟨hk.1, id⟩)
      fun hn => ihs hp.2.2.1 m hn ⟨hk.1, id⟩
  | trial t body ih =>
    obtain ⟨hbefore, hvalid, hdescent, hbody, -⟩ := hp
    intro hk
    have hcases : n = t.before ∨ (∃ d ∈ t.descent, n = d.name) ∨
        n ∈ boundOf (body.code (m.part t.composed)) ∨ n = t.valid := by
      have htail : boundOf (if t.breaks && !m.allErrors then
          [.branch (Expr.var t.valid).negate [.leave] []] else []) = [] := by
        split <;> rfl
      have hsteps : boundOf ((t.descent.map Descent.stmt).toList) =
          (t.descent.map Descent.name).toList := by
        cases t.descent <;> rfl
      simp only [code, boundOf, bound_mark, boundOf_append, bound, htail, hsteps, List.mem_append,
        List.mem_singleton, List.append_nil, Option.mem_toList, Option.map_eq_some_iff] at hn
      rcases hn with hn | (⟨d, hd, rfl⟩ | hn) | hn
      · exact .inl hn
      · exact .inr (.inl ⟨d, hd, rfl⟩)
      · exact .inr (.inr (.inl hn))
      · exact .inr (.inr (.inr hn))
    rcases hcases with rfl | ⟨d, hd, rfl⟩ | hn | rfl
    · exact hbefore.1 hk.1
    · exact (hdescent d hd).1.fresh.1 hk.1
    · exact ih hbody _ hn ⟨.inl hk.1, id⟩
    · exact hvalid.1 hk.1
  | settle before body settlement ih =>
    intro hk
    simp only [code, boundOf, bound_mark, boundOf_append, boundOf_settlement, List.append_nil,
      List.mem_append, List.mem_singleton] at hn
    rcases hn with rfl | hn
    · exact hp.1.1 hk.1
    · exact ih hp.2.1 _ hn hk
  | loop var along body ih =>
    intro hk
    have hcases : n = var ∨ n ∈ boundOf (body.code m) := by
      cases along <;> simpa [code, Traversal.stmt, boundOf, bound] using hn
    rcases hcases with rfl | hn
    · exact hp.2.1.1 hk.1
    · exact ih hp.2.2 m hn ⟨.inl hk.1, fun hs => hk.2 hs.2⟩
  | leave => cases hn
  | call invocation callee args =>
    intro hk
    cases invocation with
    | plain valid =>
      simp only [code, Invocation.code, boundOf, bound, boundOf_leavingIf, List.append_nil,
        List.mem_singleton] at hn
      exact hp.1.1 (hn ▸ hk.1)
    | awaited before caught =>
      simp only [code, Invocation.code, boundOf, bound, bound_mark, boundOf_leavingIf,
        List.append_nil, List.nil_append, List.mem_append, List.mem_singleton] at hn
      rcases hn with rfl | rfl
      · exact hp.1.1.1 hk.1
      · exact hp.1.2.1.1 hk.1
  | schema s body ih => exact ih hp.1 m hn
  | raw stmts => exact hp.elim

end Plan
end SchemaCompiler
