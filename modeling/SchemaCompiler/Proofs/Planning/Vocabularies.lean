import SchemaCompiler.Proofs.Planning.Schemas

/-!
# The keywords of a vocabulary

The keywords that are always there make plans that suit them, and so do those that are defined by a
test or by what they stand for. A vocabulary that such keywords are added to stays proper.
-/
namespace SchemaCompiler

variable {d : KeywordDefinition} {k : Keyword} {v v' : Vocabulary} {keyword : String}
  {ds : List KeywordDefinition}

/-! ## Definitions -/

def KeywordDefinition.Proper (d : KeywordDefinition) : Prop :=
  match d.kind with
  | .code plan => ∀ o : Occurrence, o.keyword = d.keyword → Visits o.visit →
      ∀ a, Makes (plan o) a (Suits .plain o a)
  | .script _ => False
  | _ => True

theorem Keyword.ofDefinition_eq_ok
    (h : Keyword.ofDefinition d = .ok k) : k.toKeywordDefinition = d := by
  unfold Keyword.ofDefinition at h
  dsimp only at h
  split at h
  · cases h
  -- the template is none, or the one that the message is read as
  · split at h
    case' h_2 => split at h
    case h_2 => cases h
    all_goals
      obtain ⟨t, -, h⟩ := bind_eq_ok.1 h
      split at h
      · cases h
      · cases h
        rfl

namespace Vocabulary

theorem add_eq_ok (h : v.add d = .ok v') :
    ∃ k : Keyword, k.toKeywordDefinition = d ∧ v'.keywords = v.keywords ++ [k] := by
  unfold add at h
  split at h
  · cases h
  · split at h
    · rename_i k hk
      cases h
      exact ⟨k, Keyword.ofDefinition_eq_ok hk, rfl⟩
    · cases h

theorem get?_of_add (h : v.add d = .ok v') (hk : v.get? keyword = some k) :
    v'.get? keyword = some k := by
  obtain ⟨k', -, hkeywords⟩ := add_eq_ok h
  unfold get? at hk ⊢
  rw [hkeywords, List.find?_append, hk]
  rfl

def extend (v : Vocabulary) (d : KeywordDefinition) : Vocabulary :=
  match v.add d with
  | .ok v => v
  | .error _ => v

theorem mem_foldl_extend
    (h : k ∈ (ds.foldl extend v).keywords) : k ∈ v.keywords ∨ k.toKeywordDefinition ∈ ds := by
  induction ds generalizing v with
  | nil => exact .inl h
  | cons d ds ih =>
    rcases ih h with hk | hk
    · unfold extend at hk
      split at hk
      · rename_i v' hv'
        obtain ⟨k', hk', hkeywords⟩ := add_eq_ok hv'
        rw [hkeywords, List.mem_append, List.mem_singleton] at hk
        rcases hk with hk | rfl
        · exact .inl hk
        · exact .inr (hk' ▸ List.mem_cons_self ..)
      · exact .inl hk
    · exact .inr (List.mem_cons_of_mem _ hk)

theorem get?_foldl_extend (h : v.get? keyword = some k) :
    (ds.foldl extend v).get? keyword = some k := by
  induction ds generalizing v with
  | nil => exact h
  | cons d ds ih =>
    refine ih ?_
    unfold extend
    split
    · rename_i hv'
      exact get?_of_add hv' h
    · exact h

end Vocabulary

/-! ## The keywords that are always there -/

theorem Core.proper_definitions : ∀ d ∈ Core.definitions, d.Proper := by
  unfold Core.definitions
  simp only [List.forall_mem_cons]
  exact ⟨fun _ _ hv _ => makes_apply hv _, fun _ _ hv _ => makes_apply hv _, trivial, trivial,
    fun _ _ _ _ => makes_planType, trivial, trivial, trivial, trivial, trivial, trivial, trivial,
    trivial, trivial, trivial, trivial, trivial, trivial, nofun⟩

theorem Assertion.proper_definitions : ∀ d ∈ Assertion.definitions, d.Proper := by
  unfold Assertion.definitions
  simp only [List.forall_mem_cons]
  exact ⟨fun _ _ _ _ => makes_planEnum, fun _ _ _ _ => makes_planConst,
    fun _ _ _ _ => makes_planLimit _ _, fun _ _ _ _ => makes_planLimit _ _,
    fun _ _ _ _ => makes_planLimit _ _, fun _ _ _ _ => makes_planLimit _ _,
    fun _ _ _ _ => makes_planMultiple, fun _ _ _ _ => makes_planSize _ _,
    fun _ _ _ _ => makes_planSize _ _, fun _ _ _ _ => makes_planPattern,
    fun _ _ _ _ => makes_planFormat, fun _ _ _ _ => makes_planSize _ _,
    fun _ _ _ _ => makes_planSize _ _, fun _ _ _ _ => makes_planUnique,
    fun _ _ _ _ => makes_planSize _ _, fun _ _ _ _ => makes_planSize _ _,
    fun _ _ _ _ => makes_planRequired, fun _ _ _ _ => makes_planDependent,
    nofun⟩

theorem Applicator.proper_definitions : ∀ d ∈ Applicator.definitions, d.Proper := by
  have hk : ∀ {o : Occurrence} {keyword : String}, o.keyword = keyword → keyword ∈ compositions →
      o.keyword ∈ compositions := fun h hc => h ▸ hc
  unfold Applicator.definitions
  simp only [List.forall_mem_cons]
  exact ⟨fun _ _ hv _ => makes_planAllOf hv,
    fun _ h hv _ => makes_planAnyOf hv (hk h (by decide)),
    fun _ h hv _ => makes_planOneOf hv (hk h (by decide)),
    fun _ h hv _ => makes_planNot hv (hk h (by decide)),
    fun _ h hv _ => makes_planIf hv (hk h (by decide)), trivial, trivial,
    fun _ _ hv _ => makes_planTuple hv _, fun _ _ hv _ => makes_planItems hv,
    fun _ _ hv _ => makes_planAdditionalItems hv,
    fun _ h hv _ => makes_planContains hv (hk h (by decide)), trivial, trivial,
    fun _ _ hv _ => makes_planProperties hv, fun _ _ hv _ => makes_planPatternProperties hv,
    fun _ _ hv _ => makes_planAdditionalProperties hv,
    fun _ h hv _ => makes_planPropertyNames hv (hk h (by decide)), nofun⟩

def Vocabulary.standardDefinitions : List KeywordDefinition :=
  Core.definitions ++ Assertion.definitions ++ Applicator.definitions ++ [Discriminator.definition]

theorem Vocabulary.mem_standard {discriminator : Bool}
    (h : k ∈ (standard discriminator).keywords) : k.toKeywordDefinition ∈ standardDefinitions := by
  have hmem := (mem_foldl_extend h).resolve_left List.not_mem_nil
  cases discriminator with
  | true => exact hmem
  | false => exact List.mem_append_left _ (by simpa using hmem)

theorem Vocabulary.proper_standardDefinitions : ∀ d ∈ standardDefinitions, d.Proper := by
  simp only [standardDefinitions, List.forall_mem_append, List.forall_mem_singleton]
  exact ⟨⟨⟨Core.proper_definitions, Assertion.proper_definitions⟩,
    Applicator.proper_definitions⟩, fun _ _ hv _ => makes_discriminator hv⟩

theorem Vocabulary.eq_typeDefinition (hd : d ∈ standardDefinitions)
    (hk : d.keyword = "type") : d = Core.typeDefinition := by
  have hmem : d ∈ standardDefinitions.filter fun d => d.keyword == "type" :=
    List.mem_filter.2 ⟨hd, by simpa using hk⟩
  exact List.mem_singleton.1 hmem

theorem Vocabulary.get?_type_standard (discriminator : Bool) :
    ∃ k ∈ (standard discriminator).keywords,
      (standard discriminator).get? "type" = some k ∧ k.toKeywordDefinition = Core.typeDefinition := by
  have hcore : ((Core.definitions.foldl extend empty).get? "type").isSome = true := by decide
  obtain ⟨k, hk⟩ := Option.isSome_iff_exists.1 hcore
  have hget : (standard discriminator).get? "type" = some k := by
    show ((Core.definitions ++ Assertion.definitions ++ Applicator.definitions
      ++ if discriminator then [Discriminator.definition] else []).foldl extend empty).get? _ = _
    rw [List.append_assoc, List.append_assoc, List.foldl_append]
    exact get?_foldl_extend hk
  have hmem : k ∈ (standard discriminator).keywords := List.mem_of_find?_eq_some hget
  have hname : k.keyword = "type" := by simpa using List.find?_some hget
  exact ⟨k, hmem, hget, eq_typeDefinition (mem_standard hmem) hname⟩

/-- A vocabulary that keywords have been added to which test data or stand for schemas. -/
structure Vocabulary.Proper (v : Vocabulary) : Prop where
  keywords : ∀ k ∈ v.keywords, k.Proper
  type : ∃ k ∈ v.keywords, v.get? "type" = some k ∧ k.toKeywordDefinition = Core.typeDefinition

theorem Vocabulary.proper_standard (discriminator : Bool) : (standard discriminator).Proper :=
  ⟨fun _ hk => proper_standardDefinitions _ (mem_standard hk), get?_type_standard discriminator⟩

theorem Vocabulary.Proper.add (h : v.Proper)
    (hd : d.Proper) (ha : v.add d = .ok v') : v'.Proper := by
  obtain ⟨k, hk, hkeywords⟩ := add_eq_ok ha
  obtain ⟨t, ht, hget, hdefinition⟩ := h.type
  have hmem : ∀ x ∈ v.keywords, x ∈ v'.keywords := fun x hx => by simp [hkeywords, hx]
  refine ⟨fun x hx => ?_, t, hmem t ht, get?_of_add ha hget, hdefinition⟩
  rw [hkeywords, List.mem_append, List.mem_singleton] at hx
  rcases hx with hx | rfl
  · exact h.keywords x hx
  · show x.toKeywordDefinition.Proper
    rw [hk]
    exact hd

theorem Vocabulary.Proper.dialect {d : Dialect} (h : d.vocabulary.Proper) : d.Proper := by
  obtain ⟨k, hmem, hget, hdefinition⟩ := h.type
  refine ⟨h.keywords, k, hmem, hget, ?_⟩
  rw [hdefinition]
  exact ⟨rfl, rfl, rfl, rfl⟩

end SchemaCompiler
