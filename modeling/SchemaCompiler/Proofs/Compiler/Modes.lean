import SchemaCompiler.Proofs.Compiler.History
import SchemaCompiler.Proofs.Failing

/-!
# Compilation does not depend on how errors are treated

A compiler that is to collect all errors and one that is not go through the same states: they check
alike, plan alike, and give the same names. Only the code that the plans are turned into differs.
-/
namespace SchemaCompiler

def Options.collecting (all : Bool) (o : Options) : Options := { o with allErrors := all }

def Dialect.collecting (all : Bool) (d : Dialect) : Dialect :=
  { d with options := d.options.collecting all }

def Compiler.collecting (all : Bool) (c : Compiler) : Compiler :=
  { c with dialect := c.dialect.collecting all }

namespace Dialect

variable (all : Bool) (d : Dialect)

/-! ## Checks -/

mutual
theorem checkSchema_collecting (path : String) : (schema : Json) →
    (d.collecting all).checkSchema path schema = d.checkSchema path schema
  | .bool _ | .null | .number b | .string b | .array b => by simp only [checkSchema]
  | .object members => by
    exact checkMembers_collecting path members members

theorem checkMembers_collecting (path : String) (siblings : List (String × Json)) :
    (members : List (String × Json)) →
      (d.collecting all).checkMembers path siblings members = d.checkMembers path siblings members
  | [] => by simp only [checkMembers]
  | (key, v) :: rest => by
    have hrest := checkMembers_collecting path siblings rest
    have hlayout : ∀ k : Keyword, (d.collecting all).checkLayout k.layout
        (path ++ "/" ++ Json.Pointer.escape key) v =
          d.checkLayout k.layout _ v :=
      fun k => checkLayout_collecting k.layout _ v
    have hvalue : ∀ k : Keyword, (d.collecting all).checkValue k siblings path v =
        d.checkValue k siblings path v := fun _ => rfl
    have hinside : ∀ k : Keyword, (d.collecting all).looksInside k v = d.looksInside k v :=
      fun _ => rfl
    have hvocabulary : (d.collecting all).vocabulary = d.vocabulary := rfl
    have hstrict : (d.collecting all).options.strictness = d.options.strictness := rfl
    simp only [checkMembers, hrest, hlayout, hvalue, hinside, hvocabulary, hstrict]

theorem checkLayout_collecting (layout : Layout) (path : String) : (v : Json) →
    (d.collecting all).checkLayout layout path v = d.checkLayout layout path v
  | .array items => by
    have hitems := checkItems_collecting path 0 items
    cases layout <;> simp only [checkLayout, hitems]
  | .object members => by
    have hmembers := checkMembers_collecting path members members
    have hmap := checkMap_collecting path members
    cases layout <;> simp only [checkLayout, hmembers, hmap]
  | .bool _ | .null | .number b | .string b => by cases layout <;> simp only [checkLayout]

theorem checkItems_collecting (path : String) (i : Nat) : (items : List Json) →
    (d.collecting all).checkItems path i items = d.checkItems path i items
  | [] => by simp only [checkItems]
  | v :: rest => by
    simp only [checkItems, checkSchema_collecting _ v,
      checkItems_collecting path (i + 1) rest]

theorem checkMap_collecting (path : String) : (members : List (String × Json)) →
    (d.collecting all).checkMap path members = d.checkMap path members
  | [] => by simp only [checkMap]
  | (name, v) :: rest => by
    simp only [checkMap, checkSchema_collecting _ v,
      checkMap_collecting path rest]
end

/-! ## Plans -/

variable {d} {visit : Site → Planner Plan} {site : Site}

theorem planExpansion_collecting (expand : Json → Json → Json) (o : Occurrence) :
    (d.collecting all).planExpansion expand o = d.planExpansion expand o := by
  simp only [planExpansion, checkSchema_collecting]

theorem planKeyword_collecting {k : Keyword} (hk : k.Proper) (group : Option JsonType) (v : Json) :
    (d.collecting all).planKeyword visit site group k v = d.planKeyword visit site group k v := by
  unfold Keyword.Proper at hk
  cases hkind : k.kind with
  | script s => simp [hkind] at hk
  | expansion expand =>
    have hplan : ∀ o, (d.collecting all).planExpansion expand o = d.planExpansion expand o :=
      planExpansion_collecting all expand
    simp only [planKeyword, hkind, hplan]
    rfl
  | code _ | test _ _ => simp only [planKeyword, hkind]; rfl
  | remark => simp only [planKeyword, hkind]

theorem planCascade_collecting (group : Option JsonType) {keywords : List (Keyword × Json)}
    (hk : ∀ x ∈ keywords, x.1.Proper) (site : Site) :
    (d.collecting all).planCascade visit group site keywords =
      d.planCascade visit group site keywords := by
  induction keywords generalizing site with
  | nil => rfl
  | cons x rest ih =>
    obtain ⟨k, v⟩ := x
    simp only [planCascade, planKeyword_collecting all (hk (k, v) (by simp)),
      ih fun x hx => hk x (by simp [hx])]

theorem planGroups_collecting (hd : ∀ k ∈ d.vocabulary.keywords, k.Proper)
    (members : List (String × Json)) (types : List JsonType) (groups : List KeywordGroup)
    (done : Option Plan) :
    (d.collecting all).planGroups visit site members types done groups =
      d.planGroups visit site members types done groups := by
  induction groups generalizing done with
  | nil => rfl
  | cons group rest ih =>
    have hkeywords : (d.collecting all).groupKeywords members group = d.groupKeywords members group :=
      rfl
    have hproper : ∀ x ∈ d.groupKeywords members group, x.1.Proper := fun x hx =>
      hd _ (mem_groupKeywords hx).1
    have hcascade : ∀ site, (d.collecting all).planCascade visit group.type? site
        _ = d.planCascade visit group.type? site
          _ := planCascade_collecting all group.type? hproper
    simp only [planGroups, hkeywords, hcascade, ih]

theorem planSchema_collecting (hd : d.Proper) (site : Site) :
    (d.collecting all).planSchema visit site = d.planSchema visit site := by
  have hgroups : ∀ members types groups done, (d.collecting all).planGroups visit site members types
      done groups = d.planGroups visit site members types done groups :=
    planGroups_collecting all hd.keywords
  have hvocabulary : (d.collecting all).vocabulary = d.vocabulary := rfl
  have hmembers : ∀ members, (d.collecting all).planMembers visit site members =
      d.planMembers visit site members := by
    intro members
    simp only [planMembers, hgroups, hvocabulary]
    cases hk : d.vocabulary.get? "type" with
    | none => rfl
    | some k =>
      cases Assoc.get? "type" members with
      | none => rfl
      | some v =>
        have hproper := hd.keywords k (List.mem_of_find?_eq_some hk)
        simp only [planKeyword_collecting all hproper]
  unfold planSchema
  split <;> simp only [hmembers]

theorem planTo_collecting (hd : d.Proper) (depth : Nat) :
    (d.collecting all).planTo depth = d.planTo depth := by
  induction depth with
  | zero => rfl
  | succ depth ih =>
    simp only [planTo, ih, planSchema_collecting all hd]

end Dialect

/-! ## Compilers -/

namespace Compiler

variable (all : Bool) (c : Compiler)

theorem register_collecting (schema : Json) (uri : Option String) :
    (c.collecting all).register schema uri =
      ((c.register schema uri).1, (c.register schema uri).2.collecting all) := by
  have hdocument : (c.collecting all).documentUri schema uri =
      ((c.documentUri schema uri).1, (c.documentUri schema uri).2.collecting all) := by
    unfold documentUri
    -- The reader is kept closed: the two sides differ in the options only.
    generalize Url.read = read
    cases uri.or _ <;> rfl
  unfold register
  rw [hdocument]
  rcases c.documentUri schema uri with ⟨e | url, c'⟩
  · rfl
  · have hcheck : (c'.collecting all).dialect.checkSchema "#" schema =
        c'.dialect.checkSchema "#" schema := c'.dialect.checkSchema_collecting all "#" schema
    dsimp only
    rw [hcheck]
    cases c'.dialect.checkSchema "#" schema <;> rfl

theorem undoing_collecting {α : Type} (r : Result α) :
    undoing (c.collecting all).checkpoint (r.1, r.2.collecting all) =
      ((undoing c.checkpoint r).1, (undoing c.checkpoint r).2.collecting all) := by
  rcases r with ⟨e | a, c'⟩ <;> rfl

variable {c} {o : Options}

theorem compileUri_collecting (h : c.Healthy o) (uri : String) :
    (c.collecting all).compileUri uri =
      ((c.compileUri uri).1, (c.compileUri uri).2.collecting all) := by
  have hplan : (c.collecting all).dialect.planTo (c.collecting all).depthBound =
      c.dialect.planTo c.depthBound := Dialect.planTo_collecting all h.vocabulary.dialect _
  unfold compileUri
  rw [hplan]
  cases Url.read uri with
  | error fault => rfl
  | ok base =>
    dsimp only
    have hresources : (c.collecting all).session = c.session := rfl
    have hlibrary : (c.collecting all).library = c.library := rfl
    rw [hresources, hlibrary]
    cases c.session.resources.resolve uri base with
    | error missing => rfl
    | ok place =>
      dsimp only
      generalize Gen.execute _ _ _ = r
      obtain ⟨e | entry, library, session⟩ := r <;> rfl

theorem compileEntry_collecting (h : c.Healthy o) (schema : Json) :
    (c.collecting all).compileEntry schema =
      ((c.compileEntry schema).1, (c.compileEntry schema).2.collecting all) := by
  unfold compileEntry
  have hcompiled : (c.collecting all).compiled = c.compiled := rfl
  rw [hcompiled]
  dsimp only
  cases Assoc.get? schema.render c.compiled with
  | some known => rfl
  | none =>
    rw [register_collecting]
    have hregister := h.register schema none
    rcases hr : c.register schema none with ⟨e | document, after⟩
    · rfl
    · rw [hr] at hregister
      dsimp only
      rw [compileUri_collecting all hregister.1, undoing_collecting]
      rcases undoing c.checkpoint _ with ⟨e | known, c'⟩ <;> rfl

end Compiler

def Asking {α : Type} (x : Except CompileError α) : Prop :=
  ∃ missing, x = .error (.missingReference missing)

namespace ValueScope

variable (m : MissingReference) (scope : ValueScope)

theorem failsOnly_slotFunction (slot : Nat) (name : Name) :
    FailsOnly (· ≠ .missingReference m) (scope.slotFunction slot name) := by
  unfold slotFunction
  split
  · exact .ok _
  · exact .error nofun

theorem failsOnly_follow (e : Entry) : FailsOnly (· ≠ .missingReference m) (scope.follow e) := by
  unfold follow
  split
  · exact .ok _
  · exact .ok _
  · exact (scope.failsOnly_slotFunction m _ _).map _
  · exact (scope.failsOnly_slotFunction m _ _).map _
  · exact .ok _

theorem failsOnly_liveForm (e : Entry) : FailsOnly (· ≠ .missingReference m) (scope.liveForm e) := by
  unfold liveForm
  split
  · exact (scope.failsOnly_slotFunction m _ _).map _
  · exact .ok _
  · exact (scope.failsOnly_slotFunction m _ _).map _
  · rename_i stored _ _ _
    cases Imports.none.link stored with
    | error fault => exact .error nofun
    | ok live => exact .ok _
  · exact .error nofun

end ValueScope

namespace Compiler

variable (all : Bool) {c : Compiler} {o : Options}

theorem not_asking_link (c : Compiler) (entry : Name) (isAsync : Bool) :
    ¬ Asking (c.link entry isAsync) := by
  rintro ⟨m, h⟩
  have hreached := ValueScope.failsOnly_reachedAs (fun e _ => c.library.scope.failsOnly_follow m e)
    (fun e _ => c.library.scope.failsOnly_liveForm m e) entry c.functions
  exact (hreached.bind fun _ => .ok _) _ h rfl

/-- What two compilers come to that treat errors in different ways: the same entry function, though
linking may fail in one of them. -/
structure Twin (r r' : Result Validator) : Prop where
  after : r'.2 = r.2.collecting all
  missing : ∀ m, r'.1 = .error (.missingReference m) ↔ r.1 = .error (.missingReference m)
  entry : ∀ v v', r.1 = .ok v → r'.1 = .ok v' → v'.entry = v.entry ∧ v'.isAsync = v.isAsync

theorem Twin.linked (r : Result (Name × Bool)) :
    Twin all (Compiler.linked r) (Compiler.linked (r.1, r.2.collecting all)) := by
  rcases r with ⟨e | ⟨entry, isAsync⟩, c'⟩
  · exact ⟨rfl, fun m => Iff.rfl, fun v v' hv => nomatch hv⟩
  · refine ⟨rfl, fun m => ⟨fun h => ?_, fun h => ?_⟩, fun v v' hv hv' => ?_⟩
    · exact absurd ⟨m, h⟩ (not_asking_link _ _ _)
    · exact absurd ⟨m, h⟩ (not_asking_link _ _ _)
    · obtain ⟨reached, -, hv⟩ := bind_eq_ok.1 hv
      obtain ⟨reached', -, hv'⟩ := bind_eq_ok.1 hv'
      cases hv
      cases hv'
      exact ⟨rfl, rfl⟩

theorem twin_compile (h : c.Healthy o) (schema : Json) :
    Twin all (c.compile schema) ((c.collecting all).compile schema) := by
  unfold compile
  rw [compileEntry_collecting all h]
  exact .linked all _

theorem twin_getSchema (h : c.Healthy o) (uri : String) :
    Twin all (c.getSchema uri) ((c.collecting all).getSchema uri) := by
  unfold getSchema
  rw [compileUri_collecting all h, undoing_collecting]
  exact .linked all _

theorem addSchema_collecting (schema : Json) (uri : Option String) :
    (c.collecting all).addSchema schema uri =
      ((c.addSchema schema uri).1, (c.addSchema schema uri).2.collecting all) := by
  unfold addSchema
  rw [register_collecting, undoing_collecting]

variable (store : List (String × Json))

theorem loadRounds_of_not_asking {schema : Json} (rounds : Nat)
    (asked : List String) (h : ¬ Asking (c.compile schema).1) :
    loadRounds store schema (rounds + 1) asked c = (c.compile schema, asked) := by
  unfold loadRounds
  split
  · rename_i missing c' hc
    exact absurd ⟨missing, by rw [hc]⟩ h
  · rfl

theorem twin_loadRounds (schema : Json) (rounds : Nat) (asked : List String) (h : c.Healthy o) :
    Twin all (loadRounds store schema rounds asked c).1
      (loadRounds store schema rounds asked (c.collecting all)).1 := by
  induction rounds generalizing asked c with
  | zero => exact twin_compile all h schema
  | succ rounds ih =>
    have htwin := twin_compile all h schema
    have hhealthy := ((Healthy.regime o).compile h schema).1
    by_cases hask : Asking (c.compile schema).1
    · obtain ⟨missing, hmissing⟩ := hask
      have hmissing' := (htwin.missing missing).2 hmissing
      have hafter := htwin.after
      unfold loadRounds
      generalize c.compile schema = r at hmissing hafter hhealthy ⊢
      generalize (c.collecting all).compile schema = r' at hmissing' hafter ⊢
      obtain ⟨r, c'⟩ := r
      obtain ⟨r', d'⟩ := r'
      obtain rfl : r = .error _ := hmissing
      obtain rfl : r' = .error _ := hmissing'
      obtain rfl : d' = c'.collecting all := hafter
      have hresources : (c'.collecting all).session = c'.session := rfl
      dsimp only
      rw [hresources]
      have hfail : ∀ e : CompileError, Twin all (.error e, c') (.error e, c'.collecting all) :=
        fun e => ⟨rfl, fun m => Iff.rfl, fun v v' hv => by cases hv⟩
      split
      · exact hfail _
      · split
        · exact hfail _
        · rename_i document _
          rw [addSchema_collecting]
          have hadd := (((Healthy.regime o).addSchema hhealthy document
            (some missing.document)).after hhealthy).1
          rcases hadded : c'.addSchema document _ with ⟨e | u, c''⟩
          · exact ⟨rfl, fun m => Iff.rfl, fun v v' hv => by cases hv⟩
          · rw [hadded] at hadd
            exact ih _ hadd
    · have hask' : ¬ Asking ((c.collecting all).compile schema).1 := fun h =>
        hask (h.imp fun missing => (htwin.missing missing).1)
      rw [loadRounds_of_not_asking store rounds asked hask,
        loadRounds_of_not_asking store rounds asked hask']
      exact htwin

theorem serve_collecting (h : c.Healthy o) (r : Request) :
    ((c.collecting all).serve r).2 = (c.serve r).2.collecting all ∧
      ∀ v v', (c.serve r).1 = some v → ((c.collecting all).serve r).1 = some v' →
        v'.entry = v.entry ∧ v'.isAsync = v.isAsync := by
  have htwin : ∀ {r r' : Result Validator}, Twin all r r' → r'.2 = r.2.collecting all ∧
      ∀ v v', r.1.toOption = some v → r'.1.toOption = some v' →
        v'.entry = v.entry ∧ v'.isAsync = v.isAsync := by
    rintro ⟨r, c⟩ ⟨r', c'⟩ ht
    refine ⟨ht.after, fun v v' hv hv' => ?_⟩
    cases r with
    | error e => cases hv
    | ok u =>
      cases r' with
      | error e => cases hv'
      | ok u' =>
        cases hv
        cases hv'
        exact ht.entry v v' rfl rfl
  cases r with
  | keyword d =>
    refine ⟨?_, fun v v' hv => by cases hv⟩
    have hvocabulary : (c.collecting all).dialect.vocabulary = c.dialect.vocabulary := rfl
    simp only [serve, addKeyword, hvocabulary]
    cases c.dialect.vocabulary.add d <;> rfl
  | format name f => exact ⟨rfl, fun v v' hv => by cases hv⟩
  | document schema uri =>
    refine ⟨?_, fun v v' hv => by cases hv⟩
    simp only [serve, addSchema_collecting]
  | schema schema => exact htwin (twin_compile all h schema)
  | uri uri =>
    simp only [serve]
    exact htwin (twin_getSchema all h uri)
  | stored schema =>
    refine ⟨?_, fun v v' hv => by cases hv⟩
    simp only [serve, compileStored, compileEntry_collecting all h]
    rcases c.compileEntry schema with ⟨e | ⟨entry, isAsync⟩, c'⟩ <;> rfl
  | loading store schema => exact htwin (twin_loadRounds all store schema _ _ h)

theorem after_collecting (all : Bool) (o : Options) {requests : List Request}
    (hr : ∀ r ∈ requests, r.Plain) :
    after (o.collecting all) requests = (after o requests).collecting all := by
  unfold after
  have hdiscriminator : (o.collecting all).discriminator = o.discriminator := rfl
  have hnew : new (o.collecting all) = (new o).collecting all := by
    simp only [new, ofDialect, Compiler.collecting, Dialect.collecting, Dialect.standard,
      hdiscriminator]
  rw [hnew]
  have hhealthy : (new o).Healthy o := .new o
  generalize new o = c at hhealthy ⊢
  induction requests generalizing c with
  | nil => rfl
  | cons r rest ih =>
    rw [List.foldl_cons, (serve_collecting all hhealthy r).1]
    exact ih (fun r hmem => hr r (by simp [hmem])) _ (hhealthy.serve (hr r (by simp))).1

end Compiler
end SchemaCompiler
