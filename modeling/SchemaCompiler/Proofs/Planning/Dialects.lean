import SchemaCompiler.Proofs.Planning.Orderly
import SchemaCompiler.Proofs.Planning.Vocabularies

/-!
# Dialects that keep order

A schema is checked and then planned keyword by keyword. Under a dialect whose keywords and formats
keep order, so does every schema, to whatever depth. The standard dialect is one of these, and it
stays one when keywords are added that test data, stand for schemas or emit code of their own.
-/
namespace SchemaCompiler

variable {α β : Type} {P : Descriptor → Prop} {o : Occurrence} {plan : Occurrence → Planner Plan}
  {f : Format}

/-! ## Checks -/

theorem SlotFree.map {r : Except CompileError α} (h : SlotFree r) (f : α → β) :
    SlotFree (r.map f) := FailsOnly.map h f

theorem Site.slotFree_dataPointer (site : Site) (pointer : String) :
    SlotFree (site.dataPointer pointer) := by
  unfold dataPointer
  split
  · exact .ok _
  · dsimp only
    split
    · exact .error id
    · split
      · split
        · exact .ok _
        · exact .error id
      · exact .error id

namespace Dialect

variable {d : Dialect}

theorem slotFree_checkValue (k : Keyword) (members : List (String × Json)) (path : String) (v : Json) :
    SlotFree (d.checkValue k members path v) := by
  unfold checkValue
  dsimp only
  split
  · exact .error id
  · split
    · exact .error id
    · exact .ok _

theorem slotFree_checkOwn (k : Keyword) (members : List (String × Json)) (path : String) (v : Json) :
    SlotFree (checkOwn k members path v) := by
  unfold checkOwn
  split
  · exact .ok _
  · rename_i check _
    cases check v _ with
    | error fault => exact .error id
    | ok _ => exact .ok _

mutual
theorem slotFree_checkSchema (path : String) : (v : Json) → SlotFree (d.checkSchema path v)
  | .bool _ => by exact .ok _
  | .object members => by
    exact slotFree_checkMembers path members members
  | .null | .number _ | .string _ | .array _ => by exact .error id

theorem slotFree_checkMembers (path : String) (all : List (String × Json)) :
    (members : List (String × Json)) → SlotFree (d.checkMembers path all members)
  | [] => by exact .ok _
  | (key, v) :: rest => by
    have hrest := slotFree_checkMembers path all rest
    rw [checkMembers]
    split
    · split
      · exact .error id
      · exact hrest
    · rename_i k _
      refine (slotFree_checkValue k all path v).bind fun _ => ?_
      split
      · exact (slotFree_checkOwn k all _ v).bind fun _ =>
          (slotFree_checkLayout k.layout _ v).bind fun _ => hrest
      · exact hrest

theorem slotFree_checkLayout (layout : Layout) (path : String) :
    (v : Json) → SlotFree (d.checkLayout layout path v)
  | .array items => by
    have hitems := slotFree_checkItems path 0 items
    cases layout <;> simp only [checkLayout]
    case none => exact .ok _
    case list => exact hitems
    case singleOrList => exact hitems
    all_goals exact .error id
  | .object members => by
    have hmembers := slotFree_checkMembers path members members
    have hmap := slotFree_checkMap path members
    cases layout <;> simp only [checkLayout]
    case none => exact .ok _
    case single => exact hmembers
    case singleOrList => exact hmembers
    case map => exact hmap
    case list => exact .error id
  | .bool _ => by
    cases layout <;> simp only [checkLayout]
    case list => exact .error id
    case map => exact .error id
    all_goals exact .ok _
  | .null => by
    cases layout <;> simp only [checkLayout]
    case none => exact .ok _
    all_goals exact .error id
  | .number _ | .string _ => by
    cases layout <;> simp only [checkLayout]
    case none => exact .ok _
    all_goals exact .error id

theorem slotFree_checkItems (path : String) :
    (i : Nat) → (items : List Json) → SlotFree (d.checkItems path i items)
  | _, [] => by exact .ok _
  | i, v :: rest => by
    have hrest := slotFree_checkItems path (i + 1) rest
    exact (slotFree_checkSchema _ v).bind fun _ => hrest

theorem slotFree_checkMap (path : String) :
    (members : List (String × Json)) → SlotFree (d.checkMap path members)
  | [] => by exact .ok _
  | (_, v) :: rest => by
    have hrest := slotFree_checkMap path rest
    exact (slotFree_checkSchema _ v).bind fun _ => hrest
end

/-! ## Keywords in their places -/

end Dialect

def KeywordDefinition.Orderly (P : Descriptor → Prop) (d : KeywordDefinition) : Prop :=
  match d.kind with
  | .code plan => ∀ o : Occurrence, o.Orderly P → Keeps P (plan o)
  | .script script => script.Written P
  | .test test path =>
    P (.keyed ("keyword:" ++ d.keyword) (.keyword test) (path.map StoredValue.imported))
  | .expansion _ => True
  | .remark => True

def Formats.Within (P : Descriptor → Prop) (formats : Formats) : Prop :=
  ∀ name f, formats.get? name = some f → P (f.descriptor name)

/-- A dialect whose keywords and formats keep order. -/
structure Dialect.Orderly (P : Descriptor → Prop) (d : Dialect) : Prop where
  keywords : ∀ k ∈ d.vocabulary.keywords, k.toKeywordDefinition.Orderly P
  formats : d.formats.Within P

namespace Dialect

variable {d : Dialect} {visit : Site → Planner Plan} {k : Keyword}

theorem keeps_planTest (hP : Admits P) {test : Json → Json → Bool} {path : Option String}
    (h : P (.keyed ("keyword:" ++ o.keyword) (.keyword test) (path.map StoredValue.imported))) :
    Keeps P (planTest test path o) :=
  (Keeps.value _ h).bind fun _ => (keeps_valueCode hP o).map

theorem keeps_planExpansion (hP : Admits P) (ho : o.Orderly P) (expand : Json → Json → Json) :
    Keeps P (d.planExpansion expand o) := by
  unfold planExpansion
  dsimp only
  split
  · rename_i e he
    exact .throw (slotFree_checkSchema _ _ e he)
  · exact keeps_require hP ho _

theorem keeps_planOnData
    (h : ∀ code site, Keeps P (plan { o with dataCode := code, site := site })) :
    Keeps P (planOnData k o plan) := by
  unfold planOnData
  split
  · rename_i e he
    exact .throw (o.site.slotFree_dataPointer _ e he)
  · exact (Keeps.fresh _).bind fun _ => (h _ _).map

theorem keeps_onValue {v : Json} {guard : Option Expr}
    (h : ∀ code site, Keeps P (plan { o with dataCode := code, site := site })) :
    Keeps P (do
      return Plan.guarded guard
        (← if d.refersToData k v then planOnData k o plan else plan o)) := by
  split
  · exact (keeps_planOnData h).map
  · exact (h _ _).map

theorem works_openOnData (ho : o.Orderly P) (k : Keyword) (mode : Mode) (builder : Builder)
    (a : Assembly Session) : Works P (openOnData k mode o builder) a fun r _ => r.1.Orderly P := by
  have hcode : ∀ code, Occurrence.Orderly P { o with dataCode := code } :=
    fun _ => ⟨ho.formats, ho.visit⟩
  unfold openOnData
  split
  · rename_i e he
    exact .throw (o.site.slotFree_dataPointer _ e he)
  · refine (Keeps.fresh _ a).bind fun code b _ _ _ => ?_
    split
    · exact .pure (hcode _)
    · exact (Keeps.checked _ b).bind fun _ _ _ _ _ => .pure (hcode _)

theorem keeps_planScript (hP : Admits P) (ho : o.Orderly P) {script : Script Unit}
    (hs : script.Written P) (k : Keyword) (guard : Option Expr) :
    Keeps P (d.planScript k script guard o) := by
  intro a
  unfold planScript
  dsimp only
  split
  · exact (works_openOnData ho k _ _ a).bind fun r b _ _ hr => hs.run hP hr _ _ b
  · exact hs.run hP ho _ _ a

theorem keeps_planKeyword (hP : Admits P) (hd : d.Orderly P) (hv : ∀ site, Keeps P (visit site))
    (site : Site) (group : Option JsonType) (hk : k.toKeywordDefinition.Orderly P)
    (v : Json) : Keeps P (d.planKeyword visit site group k v) := by
  have hoccurs : ∀ code site, Occurrence.Orderly P
      ⟨k.keyword, v, code, site, k.template, d.options.policy, d.formats, visit⟩ :=
    fun _ _ => ⟨hd.formats, hv⟩
  unfold KeywordDefinition.Orderly at hk
  unfold planKeyword
  dsimp only
  split
  · exact .pure _
  · exact (keeps_planExpansion hP (hoccurs _ _) _).map
  · rename_i plan hkind
    rw [hkind] at hk
    exact keeps_onValue fun code site => hk _ (hoccurs code site)
  · rename_i test path hkind
    rw [hkind] at hk
    exact keeps_onValue fun code site => keeps_planTest hP hk
  · rename_i script hkind
    rw [hkind] at hk
    exact keeps_planScript hP (hoccurs _ _) hk k _

/-! ## Whole schemas -/

section Schemas

variable (hP : Admits P) (hd : d.Orderly P) (hv : ∀ site, Keeps P (visit site))

include hP hd hv

theorem keeps_planCascade (group : Option JsonType) {keywords : List (Keyword × Json)}
    (hk : ∀ p ∈ keywords, p.1.toKeywordDefinition.Orderly P) (site : Site) :
    Keeps P (d.planCascade visit group site keywords) := by
  induction keywords generalizing site with
  | nil => exact .pure _
  | cons p rest ih =>
    exact (keeps_planKeyword hP hd hv site group (hk p (by simp)) p.2).bind fun _ =>
      (ih (fun q hq => hk q (by simp [hq])) _).map

omit hP hv in
theorem Orderly.groupKeywords (members : List (String × Json)) (group : KeywordGroup) :
    ∀ p ∈ d.groupKeywords members group, p.1.toKeywordDefinition.Orderly P := by
  intro p hp
  obtain ⟨k, hk, hget⟩ := List.mem_filterMap.1 hp
  obtain ⟨v, -, rfl⟩ := Option.map_eq_some_iff.1 hget
  exact hd.keywords k (List.mem_of_mem_filter hk)

theorem keeps_planGroups (site : Site) (members : List (String × Json)) (types : List JsonType)
    (groups : List KeywordGroup) (done : Option Plan) :
    Keeps P (d.planGroups visit site members types done groups) := by
  induction groups generalizing done with
  | nil => exact .pure _
  | cons group rest ih =>
    unfold planGroups
    dsimp only
    split
    · exact ih done
    · exact (keeps_planCascade hP hd hv _ (Orderly.groupKeywords hd members group) _).bind fun _ => ih _

theorem keeps_planMembers (site : Site) (members : List (String × Json)) :
    Keeps P (d.planMembers visit site members) := by
  unfold planMembers
  split
  · rename_i k v hk _
    have hmem : k ∈ d.vocabulary.keywords := List.mem_of_find?_eq_some hk
    exact (keeps_planKeyword hP hd hv site none (hd.keywords k hmem) v).bind fun _ =>
      keeps_planGroups hP hd hv site members _ _ _
  · exact keeps_planGroups hP hd hv site members _ _ _

theorem keeps_planSchema (site : Site) : Keeps P (d.planSchema visit site) := by
  unfold planSchema
  split
  · exact .pure _
  · exact .pure _
  · exact (keeps_planMembers hP hd hv site _).map
  · exact .throw id

omit hv in
theorem keeps_planTo (depth : Nat) (site : Site) : Keeps P (d.planTo depth site) := by
  induction depth generalizing site with
  | zero => exact .throw id
  | succ depth ih => exact keeps_planSchema hP hd ih site

end Schemas
end Dialect

/-! ## Vocabularies -/

theorem Core.orderly_definitions (hP : Admits P) : ∀ d ∈ Core.definitions, d.Orderly P := by
  unfold Core.definitions
  simp only [List.forall_mem_cons]
  exact ⟨fun o ho => keeps_apply hP ho _, fun o ho => keeps_apply hP ho _, trivial, trivial,
    fun o _ => .pure _, trivial, trivial, trivial, trivial, trivial, trivial, trivial,
    trivial, trivial, trivial, trivial, trivial, trivial, nofun⟩

theorem Assertion.orderly_definitions (hP : Admits P) :
    ∀ d ∈ Assertion.definitions, d.Orderly P := by
  unfold Assertion.definitions
  simp only [List.forall_mem_cons]
  exact ⟨fun o _ => keeps_planEnum hP o, fun o _ => keeps_planConst hP o,
    fun o _ => keeps_planLimit hP o _ _, fun o _ => keeps_planLimit hP o _ _,
    fun o _ => keeps_planLimit hP o _ _, fun o _ => keeps_planLimit hP o _ _,
    fun o _ => keeps_planMultiple hP o, fun o _ => keeps_planSize hP o _ _,
    fun o _ => keeps_planSize hP o _ _, fun o _ => keeps_planPattern hP o,
    fun o ho => keeps_planFormat ho, fun o _ => keeps_planSize hP o _ _,
    fun o _ => keeps_planSize hP o _ _, fun o _ => keeps_planUnique hP o,
    fun o _ => keeps_planSize hP o _ _, fun o _ => keeps_planSize hP o _ _,
    fun o _ => keeps_planRequired hP o, fun o _ => .pure _, nofun⟩

theorem Applicator.orderly_definitions (hP : Admits P) :
    ∀ d ∈ Applicator.definitions, d.Orderly P := by
  unfold Applicator.definitions
  simp only [List.forall_mem_cons]
  exact ⟨fun _ => keeps_planAllOf hP, fun _ => keeps_planAnyOf hP,
    fun _ => keeps_planOneOf hP, fun _ => keeps_planNot hP,
    fun _ => keeps_planIf hP, trivial, trivial, fun o ho => keeps_planTuple hP ho _,
    fun _ => keeps_planItems hP, fun _ => keeps_planAdditionalItems hP,
    fun _ => keeps_planContains hP, trivial, trivial,
    fun _ => keeps_planProperties hP, fun _ => keeps_planPatternProperties hP,
    fun _ => keeps_planAdditionalProperties hP,
    fun _ => keeps_planPropertyNames hP, nofun⟩

theorem Vocabulary.orderly_standard (hP : Admits P) (discriminator : Bool) :
    ∀ k ∈ (standard discriminator).keywords, k.toKeywordDefinition.Orderly P := by
  have hall : ∀ d ∈ standardDefinitions, d.Orderly P := by
    simp only [standardDefinitions, List.forall_mem_append, List.forall_mem_singleton]
    exact ⟨⟨⟨Core.orderly_definitions hP, Assertion.orderly_definitions hP⟩,
      Applicator.orderly_definitions hP⟩, fun _ => keeps_discriminator hP⟩
  exact fun k hk => hall _ (mem_standard hk)

/-! ## Formats -/

theorem Format.admits_descriptor (hP : Admits P)
    (hf : ∀ test path, f.test ≠ .predicate test path) (name : String) : P (f.descriptor name) := by
  unfold descriptor
  split
  · rename_i source compiled hread _
    exact hP.pattern _ source compiled hread
  · exact hP.primitive _ _
  · rename_i test path ht
    exact absurd ht (hf test path)

namespace Formats

theorem Within.insert {formats : Formats} (h : formats.Within P) {name : String}
    (hf : P (f.descriptor name)) : (formats.insert name f).Within P := by
  intro other g hg
  simp only [get?, Formats.insert, Assoc.get?_insert] at hg
  split at hg
  · rename_i heq
    cases hg
    exact heq ▸ hf
  · exact h other g hg

theorem within_standard (hP : Admits P) : standard.Within P := by
  unfold standard
  refine List.foldlRecOn (motive := Within P) patterns _ ?_
    fun formats h entry _ => ?_
  · refine fun name f hf => f.admits_descriptor hP (fun test path ht => ?_) name
    have hmem := Assoc.mem_of_get?_eq_some hf
    simp only [List.mem_cons, List.not_mem_nil, or_false] at hmem
    rcases hmem with ⟨-, rfl⟩ | ⟨-, rfl⟩ | ⟨-, rfl⟩ <;> cases ht
  · dsimp only
    split
    · rename_i f hf
      refine h.insert (f.admits_descriptor hP (fun test path ht => ?_) _)
      unfold Format.ofPattern at hf
      split at hf
      · cases hf
        cases ht
      · cases hf
    · exact h

end Formats

theorem Dialect.orderly_standard (hP : Admits P) (options : Options) :
    (standard options).Orderly P := by
  constructor
  · exact Vocabulary.orderly_standard hP options.discriminator
  · simp only [standard]
    exact Formats.within_standard hP

end SchemaCompiler
