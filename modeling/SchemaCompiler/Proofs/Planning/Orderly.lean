import SchemaCompiler.Proofs.Failing
import SchemaCompiler.Proofs.Planning.Functions

/-!
# Keywords that keep order

Every keyword keeps the program in order in which it is planned, whatever it plans: those that are
always there, those that test data or stand for schemas, and those written against the builder, as
long as these bring in no values but such as may be held.
-/
namespace SchemaCompiler

open Applicator Keeps Assertion

variable {α β : Type} {P : Descriptor → Prop} {o : Occurrence}

/-- What may be held is no function, and it includes the values that every program may hold. -/
structure Admits (P : Descriptor → Prop) : Prop where
  plain : ∀ d, P d → d.IsPlain
  json : ∀ v, P (.json v)
  primitive : ∀ key routine, P (.keyed key (.primitive routine) (some (.imported routine.path)))
  pattern : ∀ key source compiled, Pattern.read source = .ok compiled →
    P (.keyed key (.pattern source compiled) (some (.pattern source)))

/-- An occurrence whose formats may be held and whose inner schemas keep order. -/
structure Occurrence.Orderly (P : Descriptor → Prop) (o : Occurrence) : Prop where
  formats : ∀ name f, o.formats.get? name = some f → P (f.descriptor name)
  visit : ∀ site, Keeps P (o.visit site)

/-! ## What keywords are planned with -/

section

variable (hP : Admits P)

include hP

theorem Keeps.primitive (routine : Primitive) :
    Keeps P (Gen.primitive routine : Planner Name) := .value _ (hP.primitive _ routine)

theorem keeps_inject (v : Json) : Keeps P (Occurrence.inject v) := by
  unfold Occurrence.inject
  split
  · exact (value _ (hP.json v)).map
  · exact .pure _

theorem keeps_valueCode (o : Occurrence) : Keeps P o.valueCode := by
  unfold Occurrence.valueCode
  split
  · exact .pure _
  · exact keeps_inject hP _

theorem keeps_pattern (source : String) : Keeps P (Occurrence.pattern source) := by
  unfold Occurrence.pattern
  split
  · rename_i compiled hread
    exact .value _ (hP.pattern _ source compiled hread)
  · exact .throw id

theorem keeps_enter (site : Site) (inner : Inner) (before : Name) :
    Keeps P (Occurrence.enter site inner before) := by
  have hdescend : ∀ site key segment, Keeps P (Occurrence.descend site key segment) :=
    fun _ _ _ => (fresh _).map
  unfold Occurrence.enter
  split
  · exact .pure _
  · exact hdescend _ _ _
  · exact (primitive hP _).bind fun _ => hdescend _ _ _
  · exact hdescend _ _ _
  · exact .pure _

theorem keeps_attempt (ho : o.Orderly P) (inner : Inner) (breaks : Bool) :
    Keeps P (o.attempt inner breaks) :=
  (fresh _).bind fun before => (keeps_enter hP _ inner before).bind fun (site, _) =>
    (ho.visit site).bind fun _ => (fresh _).map

theorem keeps_require (ho : o.Orderly P) (inner : Inner) :
    Keeps P (o.require inner) := (keeps_attempt hP ho inner false).map

end

/-! ## Assertions -/

section Assertions

variable (hP : Admits P) (o : Occurrence)

include hP

theorem keeps_planEnum : Keeps P (planEnum o) := by
  refine (primitive hP _).bind fun equal => (keeps_valueCode hP o).bind fun values => ?_
  split
  · refine (mapM fun item _ => ?_).map
    unfold alternative
    split
    · exact (keeps_inject hP _).map
    · exact .pure _
  · exact (fresh _).bind fun found => (fresh _).map

theorem keeps_planConst : Keeps P (planConst o) := by
  refine (keeps_valueCode hP o).bind fun value => ?_
  split
  · exact .pure _
  · exact (primitive hP _).map

theorem keeps_planLimit (fails : BinaryOp) (comparison : String) :
    Keeps P (planLimit fails comparison o) := (keeps_valueCode hP o).map

theorem keeps_planMultiple : Keeps P (planMultiple o) :=
  (keeps_valueCode hP o).map

theorem keeps_planSize (type : JsonType) (fails : BinaryOp) : Keeps P (planSize type fails o) := by
  refine (keeps_valueCode hP o).bind fun limit => map ?_
  unfold sizeCode
  split
  · exact (primitive hP _).map
  · exact .pure _

theorem keeps_planPattern : Keeps P (planPattern o) :=
  (keeps_pattern hP _).map

theorem keeps_planUnique : Keeps P (planUnique o) := by
  unfold planUnique
  split
  · exact .pure _
  · exact (primitive hP _).bind fun _ => (fresh _).bind fun _ =>
      (fresh _).bind fun _ => (fresh _).bind fun _ => (fresh _).map

theorem keeps_planRequired : Keeps P (planRequired o) := by
  unfold planRequired
  split
  · exact (keeps_valueCode hP o).bind fun _ => (fresh _).map
  · exact .pure _

end Assertions

theorem keeps_planFormat (ho : o.Orderly P) : Keeps P (planFormat o) := by
  unfold planFormat
  split
  · exact .pure _
  · dsimp only
    split
    · split
      · exact .throw id
      · exact .pure _
    · rename_i f hf
      split
      · exact .throw id
      · exact (value _ (ho.formats _ f hf)).map

/-! ## Applicators -/

section Applicators

variable (hP : Admits P) (ho : o.Orderly P)

include hP ho

theorem keeps_planAllOf : Keeps P (planAllOf o) := by
  refine (mapM fun part _ => ?_).map
  dsimp only
  split
  · exact .pure _
  · exact keeps_require hP ho _

theorem keeps_planAlternatives (valid : Name) (parts : List (Json × Nat)) :
    Keeps P (planAlternatives o valid parts) := by
  induction parts with
  | nil => exact .pure _
  | cons part rest ih =>
    exact (keeps_attempt hP ho _ _).bind fun _ => ih.map

theorem keeps_planAnyOf : Keeps P (planAnyOf o) :=
  (fresh _).bind fun _ => (fresh _).bind fun valid =>
    (keeps_planAlternatives hP ho valid _).map

theorem keeps_planOneOf : Keeps P (planOneOf o) := by
  refine (fresh _).bind fun _ => (fresh _).bind fun _ => (fresh _).bind fun _ =>
    map ?_
  refine (mapM fun part _ => ?_).map
  exact (keeps_attempt hP ho _ _).map

theorem keeps_planNot : Keeps P (planNot o) :=
  (fresh _).bind fun _ => (keeps_attempt hP ho _ _).map

theorem keeps_clause (valid taken : Name) (keyword : String) (schema : Option Json) :
    Keeps P (clause o valid taken keyword schema) := by
  cases schema with
  | none => exact .pure _
  | some schema => exact (keeps_attempt hP ho _ _).map

theorem keeps_planIf : Keeps P (planIf o) := by
  unfold planIf
  dsimp only
  split
  · exact .pure _
  · exact (fresh _).bind fun valid => (fresh _).bind fun taken =>
      (fresh _).bind fun _ => (keeps_attempt hP ho _ _).bind fun _ =>
        (keeps_clause hP ho valid taken _ _).bind fun _ =>
          (keeps_clause hP ho valid taken _ _).map

theorem keeps_planTuple (keyword : String) : Keeps P (planTuple keyword o) := by
  refine (mapM fun part _ => ?_).map
  dsimp only
  split
  · exact .pure _
  · exact (keeps_require hP ho _).map

theorem keeps_planRest (keyword : String) (start : Nat) : Keeps P (planRest keyword start o) := by
  unfold planRest
  split
  · exact .pure _
  · exact .pure _
  · exact (fresh _).bind fun _ => (keeps_attempt hP ho _ _).map

theorem keeps_planItems : Keeps P (planItems o) := by
  unfold planItems
  split
  · exact keeps_planTuple hP ho _
  · exact keeps_planRest hP ho _ _

theorem keeps_planAdditionalItems : Keeps P (planAdditionalItems o) := by
  unfold planAdditionalItems
  split
  · exact keeps_planRest hP ho _ _
  · exact .pure _

theorem keeps_planContains : Keeps P (planContains o) :=
  (fresh _).bind fun _ => (fresh _).bind fun _ => (fresh _).bind fun _ =>
    (keeps_attempt hP ho _ _).map

theorem keeps_planProperties : Keeps P (planProperties o) := by
  refine (mapM fun part _ => ?_).map
  dsimp only
  split
  · exact .pure _
  · exact (keeps_require hP ho _).map

theorem keeps_planPatternProperties : Keeps P (planPatternProperties o) := by
  refine (mapM fun part _ => ?_).map
  exact (keeps_pattern hP _).bind fun _ => (fresh _).bind fun _ =>
    (keeps_attempt hP ho _ _).map

theorem keeps_planAdditional (key : Name) : Keeps P (planAdditional o key) := by
  unfold planAdditional
  split
  · exact .pure _
  · exact (keeps_attempt hP ho _ _).map

omit ho in
theorem keeps_unnamed (key : Name) : Keeps P (unnamed o key) := by
  unfold unnamed
  split
  · split
    · exact (keeps_inject hP _).map
    · exact .pure _
  · exact .pure _

omit ho in
theorem keeps_unmatched (key : Name) : Keeps P (unmatched o key) :=
  mapM fun _ _ => (keeps_pattern hP _).map

theorem keeps_planAdditionalProperties : Keeps P (planAdditionalProperties o) := by
  unfold planAdditionalProperties
  split
  · exact .pure _
  · exact (fresh _).bind fun key => (keeps_unnamed hP key).bind fun _ =>
      (keeps_unmatched hP key).bind fun _ => (keeps_planAdditional hP ho key).map

theorem keeps_planPropertyNames : Keeps P (planPropertyNames o) := by
  unfold planPropertyNames
  split
  · exact .pure _
  · exact (fresh _).bind fun _ => (keeps_attempt hP ho _ _).map

end Applicators

/-! ## References -/

theorem keeps_callTarget (isAsync : Bool) (callee : Name) :
    Keeps P (Reference.callTarget o isAsync callee) := by
  unfold Reference.callTarget
  split
  · exact (fresh _).bind fun _ => (fresh _).map
  · exact (fresh _).map

section References

variable {a : Assembly Session} (place : Location)

theorem works_callFinished {f : Name} (isAsync : Bool) (hf : f ∈ a.defined) :
    Works P (do Reference.callTarget o isAsync (← Reference.functionValue place f)) a
      fun _ _ => True :=
  (works_value _ fun _ _ => .function f rfl rfl hf).bind fun n b _ _ _ => keeps_callTarget isAsync n b

theorem works_callPlace (ho : o.Orderly P) (place : Location) {t : Target}
    (ht : ∀ f, t.progress = .done f → f ∈ a.defined) :
    Works P (Reference.callPlace o place t) a fun _ _ => True := by
  unfold Reference.callPlace
  split
  · refine (works_session a).bind fun s b _ _ _ => ?_
    split
    · exact .pure trivial
    · exact keeps_callTarget _ _ b
  · rename_i hp
    exact (works_compileTarget ho.visit t hp _ a).bind fun f b _ _ hf =>
      works_callFinished place _ hf.1
  · rename_i f hp
    exact works_callFinished place _ (ht f hp)

theorem Session.targetFor_cases (s : Session) :
    (∃ t, (place.key, t) ∈ s.targets ∧ s.targetFor place = (t, s)) ∨
      (place.key ∉ s.targets.map Prod.fst ∧ ∃ t : Target, t.place = place ∧ t.progress = .pending ∧
        s.targetFor place = (t, { s with targets := s.targets ++ [(place.key, t)] })) := by
  cases hget : Assoc.get? place.key s.targets with
  | some t => exact .inl ⟨t, Assoc.mem_of_get?_eq_some hget, by simp [targetFor, hget]⟩
  | none =>
    refine .inr ⟨Assoc.get?_eq_none_iff.1 hget, ⟨place, (((place.schema?).bind
      (Json.get? "$async")).bind Json.bool?).getD false, .pending⟩, rfl, rfl, ?_⟩
    simp [targetFor, hget, Assoc.insert_of_get?_eq_none hget]

theorem works_targetFor (a : Assembly Session) :
    Works P (Gen.setSession (a.session.targetFor place).2) a fun _ b =>
      ∀ f, (a.session.targetFor place).1.progress = .done f → f ∈ b.defined := by
  intro ha
  rcases a.session.targetFor_cases place with ⟨t, hmem, htarget⟩ | ⟨hnew, t, hplace, hpending, htarget⟩
  · rw [htarget]
    exact ⟨ha, .refl a, ha.done _ hmem⟩
  · rw [htarget]
    have hlast : ∀ e ∈ a.session.targets ++ [(place.key, t)], e ∈ a.session.targets ∨
        e = (place.key, t) := fun e he => by simpa using he
    refine ⟨?_, ?_, fun f hf => by rw [hpending] at hf; cases hf⟩
    · refine { ha with belongs := ?_, keys_nodup := ?_, key_eq := ?_, done := ?_ }
      · exact fun e he => (ha.belongs e he).mono (fun _ => id) (Nat.le_refl _)
      · rw [List.map_append]
        exact Assoc.nodup_concat ha.keys_nodup hnew
      · intro e he
        rcases hlast e he with he | rfl
        · exact ha.key_eq e he
        · rw [hplace]
      · intro e he f hf
        rcases hlast e he with he | rfl
        · exact ha.done e he f hf
        · rw [hpending] at hf
          cases hf
    · refine { Advance.refl a with outlines := ?_, settled := ?_ }
      · simp only [Assembly.outlines, List.map_append]
        exact List.prefix_append _ _
      · intro e he w f hp
        rcases hlast e he with he | rfl
        · exact he
        · rw [hpending] at hp
          cases hp

theorem keeps_apply (hP : Admits P) (ho : o.Orderly P) (dynamic : Bool) :
    Keeps P (Reference.apply dynamic o) := by
  intro a
  refine (works_session a).bind fun s b _ _ hs => ?_
  obtain ⟨rfl, rfl⟩ := hs
  split
  · unfold Reference.unresolved
    split
    · exact .throw id
    · exact .pure trivial
    · exact .throw id
  · rename_i found _
    dsimp only
    generalize (if dynamic then Reference.override b.session found _ else found) = place
    refine (works_targetFor place b).bind fun _ c _ _ ht => ?_
    split
    · exact .throw id
    · split
      · exact keeps_require hP ho _ c
      · exact works_callPlace ho place ht

end References

/-! ## Tags -/

def SlotFree (r : Except CompileError α) : Prop := ∀ e, r = .error e → ¬ e.AboutSlot

namespace SlotFree

theorem ok (a : α) : SlotFree (.ok a) := FailsOnly.ok a

theorem error {e : CompileError} (h : ¬ e.AboutSlot) : SlotFree (.error e : Except CompileError α) :=
  FailsOnly.error h

theorem bind {r : Except CompileError α} {f : α → Except CompileError β} (h : SlotFree r)
    (hf : ∀ a, SlotFree (f a)) : SlotFree (r >>= f) := FailsOnly.bind h hf

end SlotFree

namespace Discriminator

theorem slotFree_addTags (path : String) (i : Nat) (known : List (String × Nat))
    (tags : List String) : SlotFree (addTags path i known tags) := by
  induction tags generalizing known with
  | nil => exact .ok _
  | cons tag rest ih =>
    unfold addTags
    split
    · exact .error id
    · exact ih _

theorem slotFree_tagsFrom (s : Session) (o : Occurrence) (property : String) (i : Nat)
    (known : List (String × Nat)) (branches : List Json) :
    SlotFree (tagsFrom s o property i known branches) := by
  induction branches generalizing i known with
  | nil => exact .ok _
  | cons branch rest ih =>
    unfold tagsFrom
    dsimp only
    split
    · exact .error id
    · exact (slotFree_addTags _ _ _ _).bind fun known => ih _ known

end Discriminator

theorem keeps_liftExcept {r : Except CompileError α} (h : SlotFree r) :
    Keeps P (Discriminator.liftExcept r) := by
  cases r with
  | error e => exact .throw (h e rfl)
  | ok a => exact .pure a

theorem keeps_discriminator (hP : Admits P) (ho : o.Orderly P) : Keeps P (Discriminator.plan o) := by
  intro a
  refine (works_session a).bind fun s b _ _ _ => ?_
  have htags : Keeps P (Discriminator.liftExcept (Discriminator.tagsFrom s o
      (((o.value.get? "propertyName").bind Json.string?).getD "") 0 [] (Discriminator.branches o))) :=
    keeps_liftExcept (Discriminator.slotFree_tagsFrom _ _ _ _ _ _)
  refine (htags b).bind fun tags c _ _ _ => ?_
  refine bind (fresh _) (fun tag => ?_) c
  refine (mapM fun part _ => ?_).map
  exact (keeps_require hP ho _).map

/-! ## Scripts -/

/-- A script that is put together from what scripts are given: it reads where it stands, works on its
workbench, carries out operations of the builder, takes names and values that may be held, and tries
inner schemas. It may fail with an error of its own. -/
inductive Script.Written (P : Descriptor → Prop) : {α : Type} → Script α → Prop
  | pure {α : Type} (a : α) : Written P (Pure.pure a)
  | bind {α β : Type} {s : Script α} {f : α → Script β} :
    Written P s → (∀ a, Written P (f a)) → Written P (s >>= f)
  | fail {α : Type} {e : CompileError} : ¬ e.AboutSlot → Written P (throw e : Script α)
  | occurrence : Written P Script.occurrence
  | workbench : Written P (get : Script Workbench)
  | replace (bench : Workbench) : Written P (set bench : Script PUnit)
  | revise (f : Workbench → Workbench) : Written P (modify f : Script PUnit)
  | perform (op : Builder.Op) : Written P (Script.perform op)
  | fresh (stem : LocalStem) : Written P (Script.embed fun _ => Gen.fresh stem)
  | value (stem : Stem) {d : Descriptor} : P d → Written P (Script.embed fun _ => Gen.value stem d)
  | pattern (source : String) : Written P (Script.pattern source)
  | valueCode : Written P Script.valueCode
  | attempt (inner : Inner) (breaks : Bool) :
    Written P (Script.embed fun o => o.attempt inner breaks)

namespace Script.Written

/-! What scripts are given besides is made of these. -/

theorem data : Script.data.Written P := occurrence.bind fun _ => pure _

theorem report : Script.report.Written P :=
  occurrence.bind fun _ => workbench.bind fun _ => replace _

theorem failIf (condition : Expr) : (Script.failIf condition).Written P := by
  unfold Script.failIf
  split
  · exact pure _
  · split
    · exact report
    · exact (perform _).bind fun _ => report.bind fun _ => (perform _).bind fun _ => pure _

theorem failUnless (condition : Expr) : (Script.failUnless condition).Written P := failIf _

theorem keeps_embed {body : Occurrence → Planner α} (h : Keeps P (body o)) (bench : Workbench) :
    Keeps P (Script.embed body o bench) := h.map

theorem keeps (hP : Admits P) (ho : o.Orderly P) {s : Script α} (h : s.Written P) :
    ∀ bench, Keeps P (s o bench) := by
  induction h with
  | pure _ | occurrence | workbench | revise a => exact fun bench => .pure _
  | bind _ _ ihs ihf => exact fun bench => (ihs bench).bind fun r => ihf r.1 r.2
  | fail he => exact fun bench => .throw he
  | replace bench => exact fun _ => .pure _
  | perform op =>
    intro bench a ha
    rw [Script.perform, ran_bind, ran_get, follow_ok]
    cases op.step ⟨a.names, bench.builder⟩ with
    | ok r => exact ⟨ha.skip rfl rfl rfl, .of_eq rfl rfl, trivial⟩
    | error m => exact ⟨.refl a, id⟩
  | fresh stem => exact keeps_embed (.fresh stem)
  | value stem hd => exact keeps_embed (.value stem hd)
  | pattern source => exact keeps_embed (keeps_pattern hP source)
  | valueCode => exact keeps_embed (keeps_valueCode hP o)
  | attempt inner breaks => exact keeps_embed (keeps_attempt hP ho inner breaks)

theorem run (hP : Admits P) (ho : o.Orderly P) {s : Script Unit} (h : s.Written P) (mode : Mode)
    (builder : Builder) : Keeps P (s.run mode o builder) := by
  refine (h.keeps hP ho _).bind fun r => (checked _).bind fun builder => ?_
  split
  · exact .pure _
  · exact .throw id

end Script.Written

end SchemaCompiler
