import Mathlib.Logic.Relation
import SchemaCompiler.Proofs.Compiler.Consistency
import SchemaCompiler.Proofs.Compiler.Reach

/-!
# What is linked is closed and minimal

A name leads on to the names that its function uses, and to the function that its value stands for.
The search from an entry function meets exactly the names that it reaches in this way. So where the
functions of a program use no names but their own, those of functions and those of values, what an
entry function is linked with is all that it reaches, and nothing besides.
-/
namespace SchemaCompiler

variable {e : Entry} {checker : Checker}

def Reached.Has {τ : Type} (r : Reached τ) (n : Name) : Prop :=
  n ∈ r.functions.map Prod.fst ∨ n ∈ r.values.map Prod.fst

namespace ValueScope

variable {functions : List (Name × FunctionDef)} {scope : ValueScope} {entry n m : Name}

/-- A name leads on to the names that its function uses, and to what its value stands for. -/
inductive Leads (functions : List (Name × FunctionDef)) (scope : ValueScope) : Name → Name → Prop
  | body {n m : Name} {f : FunctionDef} (hf : (n, f) ∈ functions) (hu : f.Uses m) :
    Leads functions scope n m
  | value {e : Entry} {m : Name} (he : e ∈ scope.entries) (hm : e.Means scope m) :
    Leads functions scope e.name m

def Reaches (functions : List (Name × FunctionDef)) (scope : ValueScope) : Name → Name → Prop :=
  Relation.ReflTransGen (Leads functions scope)

/-- Functions and values that can be linked. -/
structure Linkable (functions : List (Name × FunctionDef)) (scope : ValueScope) : Prop where
  functions_nodup : (functions.map Prod.fst).Nodup
  entries_nodup : (scope.entries.map Entry.name).Nodup
  disjoint : ∀ e ∈ scope.entries, e.name ∉ functions.map Prod.fst
  follow : ∀ e ∈ scope.entries, ∀ f, e.Means scope f → scope.follow e = .ok (some f)
  means : ∀ e ∈ scope.entries, ∀ f, e.Means scope f → f ∈ functions.map Prod.fst
  uses : ∀ f ∈ functions, ∀ n, f.2.Uses n → n ∈ f.2.params ∨ n ∈ f.2.locals ∨
    n ∈ functions.map Prod.fst ∨ n ∈ scope.entries.map Entry.name
  apart : ∀ f ∈ functions, ∀ n, n ∈ f.2.params ∨ n ∈ f.2.locals →
    n ∉ functions.map Prod.fst ∧ n ∉ scope.entries.map Entry.name

/-! ## The search -/

theorem Entry.means_of_follow (h : scope.follow e = .ok (some n)) : e.Means scope n := by
  unfold ValueScope.follow at h
  split at h
  · rename_i f hl
    cases h
    exact .inl (.inl hl)
  · rename_i f hs _
    cases h
    exact .inl (.inr hs)
  · rename_i slot hl _
    obtain ⟨f, hf, ⟨⟩⟩ := map_eq_ok.1 h
    exact .inr ⟨slot, .inl hl, slotFunction_eq_ok.1 hf⟩
  · rename_i slot hs _ _
    obtain ⟨f, hf, ⟨⟩⟩ := map_eq_ok.1 h
    exact .inr ⟨slot, .inr hs, slotFunction_eq_ok.1 hf⟩
  · cases h

theorem get?_eq_some (h : scope.get? n = some e) : e ∈ scope.entries ∧ e.name = n :=
  ⟨List.mem_of_find?_eq_some h, by simpa using List.find?_some h⟩

theorem leads_of_mem_onward (h : m ∈ scope.onward functions n) : Leads functions scope n m := by
  unfold onward at h
  split at h
  · rename_i f hf
    exact .body (Assoc.mem_of_get?_eq_some hf) (FunctionDef.uses_iff.2 (List.mem_reverse.1 h))
  · split at h
    · cases h
    · rename_i e he
      obtain ⟨hmem, rfl⟩ := get?_eq_some he
      split at h
      · rename_i next hnext
        obtain rfl := List.mem_singleton.1 h
        exact .value hmem (Entry.means_of_follow hnext)
      · cases h

namespace Linkable

theorem get?_of_mem (h : Linkable functions scope) (he : e ∈ scope.entries) :
    scope.get? e.name = some e := by
  cases hfind : scope.get? e.name with
  | none => simpa using List.find?_eq_none.1 hfind e he
  | some e' =>
    obtain ⟨hmem, hname⟩ := get?_eq_some hfind
    rw [List.inj_on_of_nodup_map h.entries_nodup hmem he hname]

theorem mem_onward (h : Linkable functions scope) (hl : Leads functions scope n m) :
    m ∈ scope.onward functions n := by
  unfold onward
  cases hl with
  | body hf hu =>
    rw [(Assoc.get?_eq_some_iff h.functions_nodup).2 hf]
    exact List.mem_reverse.2 (FunctionDef.uses_iff.1 hu)
  | value he hm =>
    rw [Assoc.get?_eq_none_iff.2 (h.disjoint _ he), h.get?_of_mem he]
    dsimp only
    rw [h.follow _ he _ hm]
    exact List.mem_singleton_self _

end Linkable

theorem reaches_of_reach {fuel : Nat} {stack seen met : List Name}
    (h : reach functions scope fuel stack seen = .ok met)
    (hstack : ∀ n ∈ stack, Reaches functions scope entry n)
    (hseen : ∀ n ∈ seen, Reaches functions scope entry n) :
    ∀ n ∈ met, Reaches functions scope entry n := by
  induction fuel generalizing stack seen with
  | zero =>
    cases h
    exact hseen
  | succ fuel ih =>
    cases stack with
    | nil =>
      cases h
      exact hseen
    | cons name stack =>
      have hrest : ∀ n ∈ stack, Reaches functions scope entry n := fun n hn => hstack n (by simp [hn])
      have hname : Reaches functions scope entry name := hstack name (by simp)
      by_cases hn : name ∈ seen
      · exact ih (reach_of_mem hn h) hrest hseen
      · refine ih (reach_of_not_mem hn h) (fun n hmem => ?_) fun n hmem => ?_
        · rcases List.mem_append.1 hmem with hmem | hmem
          · exact hname.tail (leads_of_mem_onward hmem)
          · exact hrest n hmem
        · rcases List.mem_cons.1 hmem with rfl | hmem
          · exact hname
          · exact hseen n hmem

theorem mem_reach_iff (h : Linkable functions scope) {met : List Name}
    (hmet : reach functions scope (scope.reachBound functions) [entry] [] = .ok met) :
    n ∈ met ↔ Reaches functions scope entry n := by
  constructor
  · exact reaches_of_reach hmet (by simp [Reaches, Relation.ReflTransGen.refl]) (by simp) n
  · intro hr
    induction hr with
    | refl => exact mem_reach hmet
    | tail _ hl ih => exact onward_subset_of_reach hmet _ ih (h.mem_onward hl)

/-! ## What is linked -/

/-- What an entry function is linked with is closed and minimal. Values are had by `form`, and
`names` says which functions a value names. -/
structure Linked {τ : Type} (form : Entry → Except CompileError τ) (names : τ → Name → Prop)
    (functions : List (Name × FunctionDef)) (scope : ValueScope) (entry : Name)
    (r : Reached τ) : Prop where
  /-- Functions come in the order of their definition. -/
  functions_sublist : r.functions.Sublist functions
  functions_iff : ∀ f ∈ functions, f ∈ r.functions ↔ Reaches functions scope entry f.1
  /-- Values come in the order in which they were first held. -/
  values_sublist : (r.values.map Prod.fst).Sublist (scope.entries.map Entry.name)
  values_iff : ∀ e ∈ scope.entries,
    e.name ∈ r.values.map Prod.fst ↔ Reaches functions scope entry e.name
  values_form : ∀ v ∈ r.values, ∃ e ∈ scope.entries, e.name = v.1 ∧ form e = .ok v.2
  /-- A name that a function uses is its own, or is there. -/
  uses : ∀ f ∈ r.functions, ∀ n, f.2.Uses n → n ∈ f.2.params ∨ n ∈ f.2.locals ∨ r.Has n
  /-- A function that a value names is there. -/
  named : ∀ v ∈ r.values, ∀ f, names v.2 f → f ∈ r.functions.map Prod.fst
  /-- No function has a name of its own that is there as another one. -/
  apart : ∀ f ∈ functions, ∀ n, n ∈ f.2.params ∨ n ∈ f.2.locals → ¬ r.Has n

section Forms

variable {τ : Type} {form : Entry → Except CompileError τ} {names : τ → Name → Prop}

/-- Where every entry has a form, the values are those, under the names of the entries. -/
theorem mapM_form {entries : List Entry} {values : List (Name × τ)}
    (h : (entries.mapM fun e => do
      let v ← form e
      return (e.name, v)) = .ok values) :
    values.map Prod.fst = entries.map Entry.name ∧
      ∀ v ∈ values, ∃ e ∈ entries, e.name = v.1 ∧ form e = .ok v.2 := by
  induction entries generalizing values with
  | nil =>
    cases h
    exact ⟨rfl, by simp⟩
  | cons e rest ih =>
    rw [List.mapM_cons] at h
    obtain ⟨p, hp, hrest⟩ := bind_eq_ok.1 h
    obtain ⟨v, hv, hpair⟩ := bind_eq_ok.1 hp
    obtain ⟨others, hothers, hvalues⟩ := bind_eq_ok.1 hrest
    cases hpair
    cases hvalues
    obtain ⟨hnames, hforms⟩ := ih hothers
    refine ⟨by rw [List.map_cons, List.map_cons, hnames], fun w hw => ?_⟩
    rcases List.mem_cons.1 hw with rfl | hw
    · exact ⟨e, by simp, rfl, hv⟩
    · obtain ⟨e', he', hform⟩ := hforms w hw
      exact ⟨e', by simp [he'], hform⟩

theorem mem_map_name_filter {p : Entry → Bool} (hd : (scope.entries.map Entry.name).Nodup)
    (he : e ∈ scope.entries) : e.name ∈ (scope.entries.filter p).map Entry.name ↔ p e = true := by
  constructor
  · intro h
    obtain ⟨e', he', hname⟩ := List.mem_map.1 h
    obtain ⟨hmem, hp⟩ := List.mem_filter.1 he'
    rwa [← List.inj_on_of_nodup_map hd hmem he hname]
  · exact fun hp => List.mem_map_of_mem (List.mem_filter.2 ⟨he, hp⟩)

theorem Linkable.linked (h : Linkable functions scope)
    (hform : ∀ e ∈ scope.entries, ∀ v f, form e = .ok v → names v f → e.Means scope f)
    {r : Reached τ} (hr : scope.reachedAs form entry functions = .ok r) :
    Linked form names functions scope entry r := by
  obtain ⟨⟨met, entries⟩, hreachable, hrest⟩ := bind_eq_ok.1 hr
  obtain ⟨values, hvalues, hpair⟩ := bind_eq_ok.1 hrest
  cases hpair
  obtain ⟨seen, hseen, hmet⟩ := bind_eq_ok.1 hreachable
  cases hmet
  obtain ⟨hnames, hforms⟩ := mapM_form hvalues
  have hfunction : ∀ f ∈ functions, f ∈ functions.filter (fun f => seen.contains f.1) ↔
      Reaches functions scope entry f.1 := by
    intro f hf
    simp [hf, mem_reach_iff h hseen]
  have hvalue : ∀ e ∈ scope.entries, e.name ∈ values.map Prod.fst ↔
      Reaches functions scope entry e.name := by
    intro e he
    rw [hnames, mem_map_name_filter h.entries_nodup he, ← mem_reach_iff h hseen]
    simp [Assoc.contains, Assoc.get?_eq_none_iff.2 (h.disjoint e he)]
  -- a name of a function or a value that is reached is there
  have hhas : ∀ n, Reaches functions scope entry n →
      n ∈ functions.map Prod.fst ∨ n ∈ scope.entries.map Entry.name →
      n ∈ (functions.filter fun f => seen.contains f.1).map Prod.fst ∨ n ∈ values.map Prod.fst := by
    rintro n hn (hmem | hmem)
    · obtain ⟨f, hf, rfl⟩ := List.mem_map.1 hmem
      exact .inl (List.mem_map_of_mem ((hfunction f hf).2 hn))
    · obtain ⟨e, he, rfl⟩ := List.mem_map.1 hmem
      exact .inr ((hvalue e he).2 hn)
  have hsublist : (values.map Prod.fst).Sublist (scope.entries.map Entry.name) := by
    rw [hnames]
    exact List.filter_sublist.map _
  refine ⟨List.filter_sublist, hfunction, hsublist, hvalue, fun v hv => ?_, fun f hf n hn => ?_,
    fun v hv f hname => ?_, fun f hf n hn hmem => ?_⟩
  · obtain ⟨e, he, hrest⟩ := hforms v hv
    exact ⟨e, List.mem_of_mem_filter he, hrest⟩
  · have hmem := List.mem_of_mem_filter hf
    rcases h.uses f hmem n hn with hp | hl | hthere
    · exact .inl hp
    · exact .inr (.inl hl)
    · exact .inr (.inr (hhas n (((hfunction f hmem).1 hf).tail (.body hmem hn)) hthere))
  · obtain ⟨e, he, hen, hev⟩ := hforms v hv
    have hmem := List.mem_of_mem_filter he
    have hmeans := hform e hmem v.2 f hev hname
    have hreaches : Reaches functions scope entry e.name :=
      (hvalue e hmem).1 (hen ▸ List.mem_map_of_mem hv)
    obtain ⟨g, hg, rfl⟩ := List.mem_map.1 (h.means e hmem f hmeans)
    exact List.mem_map_of_mem ((hfunction g hg).2 (hreaches.tail (.value hmem hmeans)))
  · have happart := h.apart f hf n hn
    rcases hmem with hmem | hmem
    · exact happart.1 ((List.filter_sublist.map _).subset hmem)
    · exact happart.2 (hsublist.subset hmem)

end Forms

def LiveNames (v : LiveValue) (f : Name) : Prop := v = .function f

def StoredNames (v : StoredValue) (f : Name) : Prop := v = .function f

theorem Entry.means_of_storedForm {f : Name}
    (h : scope.storedForm e = .ok (.function f)) : e.Means scope f := by
  unfold storedForm at h
  split at h
  · rename_i slot hs
    obtain ⟨g, hg, ⟨⟩⟩ := map_eq_ok.1 h
    exact .inr ⟨slot, .inr hs, slotFunction_eq_ok.1 hg⟩
  · rename_i stored hs
    cases h
    exact .inl (.inr hs)
  · cases h

/-- An entry function can be linked with live values, and whatever it is linked with, in either form,
is closed and minimal. -/
structure LinksWell (functions : List (Name × FunctionDef)) (scope : ValueScope) (entry : Name) :
    Prop where
  live : ∃ r, scope.reachedLive entry functions = .ok r ∧
    Linked (fun e => scope.liveForm e) LiveNames functions scope entry r
  stored : ∀ r, scope.reachedStored entry functions = .ok r →
    Linked (fun e => scope.storedForm e) StoredNames functions scope entry r

theorem Linkable.linksWell (h : Linkable functions scope) {r : Reached LiveValue}
    (hr : scope.reachedLive entry functions = .ok r) : LinksWell functions scope entry where
  live := by
    refine ⟨r, hr, h.linked (fun e _ v f hv hf => ?_) hr⟩
    obtain rfl : v = .function f := hf
    exact Entry.means_of_liveForm hv
  stored := fun r hr => by
    refine h.linked (fun e _ v f hv hf => ?_) hr
    obtain rfl : v = .function f := hf
    exact Entry.means_of_storedForm hv

end ValueScope

/-! ## Functions of schemas -/

open Stmt in
theorem Checker.Grounded.known {H : Name → Prop} (h : checker.Grounded H)
    (allErrors : Bool) (name : Name) :
    Known (fun n => n ∈ Checker.parameters ∨ H n) (checker.code allErrors name).body := by
  have hending : Known (fun n => (n ∈ Checker.parameters ∨ H n) ∨ n = checker.before)
      (checker.ending (checker.mode allErrors)) := by
    unfold Checker.ending
    split
    · refine .cons (.branch (by simp [Expr.differs, Expr.names]) (Plan.known_leaving _) .nil) ?_
      intro n hn
      obtain rfl : n = dataName := by simpa [namesOfBlock, names, Expr.names] using hn
      exact .inl (.inl (.inl (.inl (by decide))))
    · intro n hn
      obtain rfl : n = checker.before := by simpa [namesOfBlock, names, Plan.names_unmoved] using hn
      exact .inl (.inr rfl)
  refine .cons (Plan.known_mark _) ?_
  refine Known.mono
    (.append_of ((h _).mono fun n hn => ?_) hending) fun n hn => ?_
  · rcases hn with hn | hn | hn
    · exact .inl (.inl hn)
    · exact .inr hn
    · exact .inl (.inr hn)
  · exact hn.imp_right fun hn => by simp [Plan.bound_mark, hn]

theorem Checker.Fits.not_reserved {callable : Name → Bool → Prop}
    (h : checker.Fits callable) (allErrors : Bool) (name : Name) {n : Name}
    (hn : n ∈ (checker.code allErrors name).params ∨ n ∈ (checker.code allErrors name).locals) :
    ¬ n.Reserved := by
  rcases hn with hn | hn
  · have hdigit : ∀ n ∈ Checker.parameters, endsInDigit n.text = false := by decide
    exact Name.not_reserved_of_undigited (hdigit n hn)
  · have hending : Stmt.boundOf (checker.ending (checker.mode allErrors)) = [] := by
      unfold Checker.ending Mode.leaving
      split
      · split <;> rfl
      · rfl
    have hor : n = checker.before ∨ n ∈ Stmt.boundOf (checker.plan.code (checker.mode allErrors)) := by
      simpa [FunctionDef.locals, Checker.code, Stmt.boundOf, Stmt.boundOf_append, Plan.bound_mark,
        hending] using hn
    rcases hor with rfl | hn
    · exact fun hr => h.fresh (.inr hr)
    · exact fun hr => h.plan.bound_apart _ hn ⟨.inr hr, id⟩

/-! ## Live values -/

def Descriptor.HasLive (d : Descriptor) : Prop :=
  d.IsPlain ∧ (d.live ≠ none ∨ ∃ v, d.stored = some (.json v))

theorem Descriptor.HasLive.keyed {key : String} {live : LiveValue} {stored : Option StoredValue}
    (h : (Descriptor.keyed key live stored).IsPlain) : (Descriptor.keyed key live stored).HasLive :=
  ⟨h, .inl (by simp [Descriptor.keyed])⟩

theorem admits_hasLive : Admits Descriptor.HasLive where
  plain := fun _ h => h.1
  json := fun v => ⟨Compiler.admits_isPlain.json v, .inr ⟨v, rfl⟩⟩
  primitive := fun key routine => .keyed (Compiler.admits_isPlain.primitive key routine)
  pattern := fun key source compiled h => .keyed (Compiler.admits_isPlain.pattern key source compiled h)

theorem Format.hasLive_descriptor (f : Format) (name : String) : (f.descriptor name).HasLive := by
  refine ⟨f.isPlain_descriptor name, .inl ?_⟩
  unfold descriptor
  split <;> simp [Descriptor.keyed]

namespace Compiler

variable {o : Options} {c : Compiler} {P : Descriptor → Prop}

theorem map_fst_functions (c : Compiler) : c.functions.map Prod.fst = c.assembly.checkers.map Prod.fst := by
  simp [functions, Assembly.checkers, assembly]

theorem linkable (hP : Admits P) (h : c.Healthy o) (hc : c.InOrder P) :
    ValueScope.Linkable c.functions c.library.scope := by
  have hreserved : ∀ f ∈ c.functions.map Prod.fst, f.Reserved := fun f hf => by
    obtain ⟨k, rfl, -⟩ := h.coherent.checkers_given f (c.map_fst_functions ▸ hf)
    exact Stem.reserved_name (by decide) k
  have hchecker : ∀ f ∈ c.functions, ∃ checker, c.assembly.checker? f.1 = some checker ∧
      f.2 = checker.code c.options.allErrors f.1 := fun f hf => by
    obtain ⟨⟨name, checker⟩, hmem, rfl⟩ := List.mem_map.1 hf
    exact ⟨checker, (Assoc.get?_eq_some_iff h.coherent.checkers_nodup).2 hmem, rfl⟩
  constructor
  case functions_nodup => exact c.map_fst_functions ▸ h.coherent.checkers_nodup
  case entries_nodup => exact h.coherent.entries_nodup
  case disjoint => exact c.map_fst_functions ▸ h.coherent.disjoint
  case follow => exact fun e he f hf => (hc.follow_of_means hP he hf).1
  case means => exact fun e he f hf => c.map_fst_functions ▸ (hc.follow_of_means hP he hf).2
  case uses =>
    intro f hf n hn
    obtain ⟨checker, hchecker, hcode⟩ := hchecker f hf
    rw [hcode] at hn ⊢
    rcases (h.coherent.grounded f.1 checker hchecker).known _ _ n (FunctionDef.uses_iff.1 hn) with
      (hn | ⟨e, he, rfl⟩) | hn
    · exact .inl hn
    · exact .inr (.inr (.inr (List.mem_map_of_mem he)))
    · exact .inr (.inl hn)
  case apart =>
    intro f hf n hn
    obtain ⟨checker, hchecker, hcode⟩ := hchecker f hf
    rw [hcode] at hn
    have hfree := (h.coherent.fits f.1 checker hchecker).not_reserved _ _ hn
    refine ⟨fun hmem => hfree (hreserved n hmem), fun hmem => ?_⟩
    obtain ⟨e, he, rfl⟩ := List.mem_map.1 hmem
    exact hfree (h.coherent.reserved e he)

theorem Request.Plain.within {r : Request} (h : r.Plain) : r.Within Descriptor.HasLive := by
  cases r with
  | keyword d =>
    show d.Orderly _
    unfold KeywordDefinition.Orderly
    unfold Request.Plain at h
    dsimp only at h
    split
    · rename_i hkind
      rw [hkind] at h
      exact h.elim
    · rename_i hkind
      rw [hkind] at h
      exact h.elim
    · exact .keyed (Descriptor.isPlain_keyed (by simp) (by simp) (by simp) (by simp))
    · trivial
    · trivial
  | format name f => exact f.hasLive_descriptor name
  | _ => trivial

theorem InOrder.exists_liveForm (h : c.InOrder Descriptor.HasLive) {e : ValueScope.Entry}
    (he : e ∈ c.assembly.entries) : ∃ v, c.library.scope.liveForm e = .ok v := by
  unfold ValueScope.liveForm
  cases h.program.belongs e he with
  | value d hd hlive hstored =>
    obtain ⟨⟨-, hforward⟩, hd⟩ := hd
    rw [hlive, hstored]
    cases hl : d.live with
    | some live =>
      cases live with
      | forward slot => exact absurd hl (hforward slot).1
      | _ => exact ⟨_, rfl⟩
    | none =>
      obtain ⟨v, hv⟩ := hd.resolve_left (by simp [hl])
      rw [hv]
      exact ⟨_, rfl⟩
  | function f hlive hstored hf =>
    rw [hlive]
    exact ⟨_, rfl⟩
  | forward slot hlive hstored hslot =>
    obtain ⟨f, hf, hslot⟩ := h.slotFunction hslot e.name
    rw [hlive]
    dsimp only
    rw [hslot]
    exact ⟨_, rfl⟩

/-- After any requests, what an entry function is linked with is closed and minimal. -/
theorem linksWell_after (o : Options) {requests : List Request} (hr : ∀ r ∈ requests, r.Plain)
    (entry : Name) :
    ValueScope.LinksWell (after o requests).functions (after o requests).library.scope entry := by
  have hc := inOrder_after admits_hasLive o fun r hmem => (hr r hmem).within
  have hl := linkable admits_hasLive (healthy_after o hr) hc
  generalize after o requests = c at hc hl
  obtain ⟨reached, hreached⟩ := (ValueScope.failsOnly_reachedAs
    (fun _ he => .of_exists (hc.forms admits_hasLive he).1)
    (fun _ he => .of_exists (hc.exists_liveForm he)) entry c.functions).exists_ok
  exact hl.linksWell hreached

end Compiler
end SchemaCompiler
