import SchemaCompiler.Proofs.TypeDefinition.Admission

/-!
# Conformance along a relation of values

Whether a value is of a form is asked part by part, and so it carries over from one value to another
that has related parts. Two relations matter: that values are the same and do not nest too deep, by
which what is asked of values without a form may be changed; and that values are alike, by which the
order of members is seen not to matter.
-/
namespace SchemaCompiler.TypeDefinition

open Assoc

variable {calls' calls : Nat} {schema : Schema}

/-- Related values have related parts: scalars are the same, items are related to items, and members
to members of the same name. -/
structure Relates (R : Json → Json → Prop) : Prop where
  scalar {u v : Json} : R u v → u.isContainer = false → v = u
  array {xs : List Json} {v : Json} : R (.array xs) v →
    ∃ ys, v = .array ys ∧ ∀ y ∈ ys, ∃ x ∈ xs, R x y
  object {ms : List (String × Json)} {v : Json} : R (.object ms) v →
    ∃ ns, v = .object ns ∧ (∀ k, Option.Rel R (get? k ms) (get? k ns)) ∧
      ∀ n ∈ ns, ∃ m ∈ ms, m.1 = n.1 ∧ R m.2 n.2

/-- What is asked of plain values carries over, also for members in front of a tag. -/
structure CarriesPlain (R : Json → Json → Prop) (plain plain' : Json → Prop) : Prop extends
    Relates R where
  ofPlain {u v : Json} : R u v → plain u → plain' v
  front {ms ns : List (String × Json)} (tag : String) : R (.object ms) (.object ns) →
    (∀ m ∈ ms.takeWhile (·.1 != tag), plain m.2) → ∀ n ∈ ns.takeWhile (·.1 != tag), plain' n.2

/-- What is asked of plain values and of values of the form of a name carries over. -/
structure Carries (R : Json → Json → Prop) (plain plain' : Json → Prop)
    (onRef onRef' : String → Json → Prop) : Prop extends CarriesPlain R plain plain' where
  ofRef (name : String) (u v : Json) : R u v → onRef name u → onRef' name v

theorem ScalarType.isContainer_of_holds {t : ScalarType} {u : Json} (h : t.holds u = true) :
    u.isContainer = false := by
  cases u with
  | array items | object items =>
    cases t <;> simp [ScalarType.holds, ScalarType.bounds?, isBetween] at h
  | _ => rfl

namespace Form

variable {R : Json → Json → Prop} {plain plain' : Json → Prop} {onRef onRef' : String → Json → Prop}

variable {ms ns : List (String × Json)} {required optional : List (String × Form)}
  {tag : Option String} {additional : Bool}

/-- What conforms to a form carries over. -/
def Carried (R : Json → Json → Prop) (plain plain' : Json → Prop)
    (onRef onRef' : String → Json → Prop) (form : Form) : Prop :=
  ∀ u v, R u v → form.Conforms plain onRef u → form.Conforms plain' onRef' v

theorem exists_of_get? {name : String} {u : Json} (hget : ∀ k, Option.Rel R (get? k ms) (get? k ns))
    (hu : get? name ms = some u) : ∃ v, get? name ns = some v ∧ R u v := by
  have hrel := hget name
  rw [hu] at hrel
  generalize get? name ns = found at hrel ⊢
  cases hrel with
  | some hrel => exact ⟨_, rfl, hrel⟩

/-- The members of an object carry over if each form does. -/
theorem carry_object (h : Carries R plain plain' onRef onRef')
    (hobject : R (.object ms) (.object ns))
    (hrequired : ∀ f ∈ required, Carried R plain plain' onRef onRef' f.2)
    (hoptional : ∀ f ∈ optional, Carried R plain plain' onRef onRef' f.2)
    (hconforms : RequiredConform plain onRef ms required ∧ OptionalConform plain onRef ms optional ∧
      Covers plain required optional additional tag ms) :
    RequiredConform plain' onRef' ns required ∧ OptionalConform plain' onRef' ns optional ∧
      Covers plain' required optional additional tag ns := by
  obtain ⟨_, ⟨⟩, hget, hmembers⟩ := h.object hobject
  simp only [requiredConform_iff, optionalConform_iff] at hconforms ⊢
  refine ⟨fun f hf => ?_, fun f hf w hw => ?_, fun n hn => ?_⟩
  · obtain ⟨u, hu, hconforms⟩ := hconforms.1 f hf
    obtain ⟨v, hv, hrel⟩ := exists_of_get? hget hu
    exact ⟨v, hv, hrequired f hf u v hrel hconforms⟩
  · have hrel := hget f.1
    rw [hw] at hrel
    generalize hv : get? f.1 ms = found at hrel
    cases hrel with
    | some hrel => exact hoptional f hf _ w hrel (hconforms.2.1 f hf _ hv)
  · obtain ⟨m, hm, hname, hrel⟩ := hmembers n hn
    rcases hconforms.2.2 m hm with hin | hin | hin | ⟨hadditional, hplain⟩
    · exact .inl (hname ▸ hin)
    · exact .inr (.inl (hname ▸ hin))
    · exact .inr (.inr (.inl (hname ▸ hin)))
    · exact .inr (.inr (.inr ⟨hadditional, h.ofPlain hrel hplain⟩))

/-- A form carries over as it is, and as one that a tag selects. -/
theorem carried (h : Carries R plain plain' onRef onRef') (form : Form) :
    Carried R plain plain' onRef onRef' form ∧ ∀ tag ms ns, R (.object ms) (.object ns) →
      SelectedConforms plain onRef tag ms form → SelectedConforms plain' onRef' tag ns form := by
  induction form using induction_members with
  | properties required optional additional ihr iho =>
    refine ⟨fun u v hr hu => ?_, fun tag ms ns hr hs => ?_⟩
    · obtain ⟨ms, rfl, hconforms⟩ := hu
      obtain ⟨ns, rfl, -⟩ := h.object hr
      exact ⟨ns, rfl, carry_object h hr (fun f hf => (ihr f hf).1) (fun f hf => (iho f hf).1)
        hconforms⟩
    · exact carry_object h hr (fun f hf => (ihr f hf).1) (fun f hf => (iho f hf).1) hs
  | _ => ?_
  all_goals refine ⟨fun u v hr hu => ?_, fun _ _ _ _ hs => by simp only [SelectedConforms] at hs⟩
  case empty => exact h.ofPlain hr hu
  case ref name => exact h.ofRef name u v hr hu
  case type t => rwa [h.scalar hr (ScalarType.isContainer_of_holds hu)]
  case enum texts =>
    obtain ⟨s, hs, rfl⟩ := hu
    exact ⟨s, hs, h.scalar hr rfl⟩
  case elements item ih =>
    obtain ⟨xs, rfl, hall⟩ := hu
    obtain ⟨ys, rfl, hitems⟩ := h.array hr
    refine ⟨ys, rfl, fun y hy => ?_⟩
    obtain ⟨x, hx, hrel⟩ := hitems y hy
    exact ih.1 x y hrel (hall x hx)
  case values item ih =>
    obtain ⟨ms, rfl, hall⟩ := hu
    obtain ⟨ns, rfl, -, hmembers⟩ := h.object hr
    refine ⟨ns, rfl, fun n hn => ?_⟩
    obtain ⟨m, hm, -, hrel⟩ := hmembers n hn
    exact ih.1 _ _ hrel (hall m hm)
  case discriminator tag mapping ih =>
    obtain ⟨ms, value, rfl, htag, hfront, hmapped⟩ := hu
    obtain ⟨ns, rfl, hget, hmembers⟩ := h.object hr
    obtain ⟨form, hmem, hselected⟩ := mappedConforms_iff.1 hmapped
    obtain ⟨v, hv, hrel⟩ := exists_of_get? hget htag
    refine ⟨ns, value, rfl, by rw [hv, h.scalar hrel rfl], h.front tag hr hfront, ?_⟩
    exact mappedConforms_iff.2 ⟨form, hmem, (ih _ hmem).2 tag ms ns hr hselected⟩
  case nullable form ih =>
    rcases hu with rfl | hu
    · exact .inl (h.scalar hr rfl)
    · exact .inr (ih.1 u v hr hu)

end Form

/-! ## Type definitions -/

namespace CarriesPlain

variable {definitions : List (String × Form)} {R : Json → Json → Prop} {plain plain' : Json → Prop}

variable (h : CarriesPlain R plain plain')

include h

theorem ref {call call' : String → Json → Prop}
    (hcall : ∀ name u v, R u v → call name u → call' name v) :
    Carries R plain plain' (Schema.RefConforms plain definitions call)
      (Schema.RefConforms plain' definitions call') where
  toCarriesPlain := h
  ofRef name u v hr hu := by
    obtain ⟨form, hform, hu⟩ := hu
    refine ⟨form, hform, ?_⟩
    split at hu
    · rename_i href
      rw [if_pos href]
      exact hcall name u v hr hu
    · rename_i href
      rw [if_neg href]
      exact (Form.carried ⟨h, fun _ _ _ _ hfalse => hfalse⟩ form).1 _ _ hr hu

theorem call (hcalls : calls ≤ calls') (name : String) (u v : Json) (hr : R u v)
    (hu : Schema.CallConforms plain definitions calls name u) :
    Schema.CallConforms plain' definitions calls' name v := by
  induction calls generalizing calls' name u v with
  | zero => exact hu.elim
  | succ calls ih =>
    obtain ⟨calls', rfl⟩ : ∃ k, calls' = k + 1 := ⟨calls' - 1, by omega⟩
    obtain ⟨form, hform, hu⟩ := hu
    have hcarries : Carries R plain plain'
        _
        (Schema.RefConforms plain' definitions (Schema.CallConforms plain' definitions calls')) :=
      h.ref (ih (by omega))
    exact ⟨form, hform, (Form.carried hcarries form).1 _ _ hr hu⟩

theorem within
    (hcalls : calls ≤ calls') {u v : Json} (hr : R u v) (hu : schema.ConformsWithin plain calls u) :
    schema.ConformsWithin plain' calls' v :=
  (Form.carried (h.ref (h.call hcalls)) schema.root).1 _ _ hr hu

end CarriesPlain

/-! ## Values that nest no deeper -/

theorem relates_nesting (n : Nat) : Relates fun u v => u = v ∧ v.nesting ≤ n where
  scalar h _ := h.1.symm
  array {xs v} h := by
    obtain ⟨rfl, hn⟩ := h
    refine ⟨xs, rfl, fun y hy => ⟨y, hy, rfl, ?_⟩⟩
    have := Json.nestingItems_le_iff.1 (Nat.le_refl _) y hy
    simp only [Json.nesting] at hn
    omega
  object {ms v} h := by
    obtain ⟨rfl, hn⟩ := h
    have hle : ∀ m ∈ ms, m.2.nesting ≤ n := by
      intro m hm
      have := Json.nestingMembers_le_iff.1 (Nat.le_refl _) m hm
      simp only [Json.nesting] at hn
      omega
    refine ⟨ms, rfl, fun k => ?_, fun m hm => ⟨m, hm, rfl, rfl, hle m hm⟩⟩
    cases hk : get? k ms with
    | none => exact .none
    | some w => exact .some ⟨rfl, hle _ (mem_of_get?_eq_some hk)⟩

/-- A longer chain of calls does no harm, and what is asked of plain values need only hold of those
that nest no deeper than the value. -/
theorem Schema.ConformsWithin.mono {plain plain' : Json → Prop} (hcalls : calls ≤ calls') {v : Json}
    (hplain : ∀ w, w.nesting ≤ v.nesting → plain w → plain' w)
    (h : schema.ConformsWithin plain calls v) : schema.ConformsWithin plain' calls' v := by
  have hcarries : CarriesPlain (fun u w => u = w ∧ w.nesting ≤ v.nesting) plain plain' :=
    { relates_nesting v.nesting with
      ofPlain := fun hr hu => hplain _ hr.2 (hr.1 ▸ hu)
      front := fun tag hr hfront n hn => by
        obtain ⟨heq, hle⟩ := hr
        cases heq
        have := Json.nestingMembers_le_iff.1 (Nat.le_refl _) n ((List.takeWhile_subset _) hn)
        simp only [Json.nesting] at hle
        exact hplain _ (by omega) (hfront n hn) }
  exact hcarries.within hcalls ⟨rfl, Nat.le_refl _⟩ h

/-! ## Alike values -/

theorem rel_of_alike {ms : List (String × Json)} {v : Json} (h : Json.Alike (.object ms) v) :
    ∃ ns, v = .object ns ∧ ∀ k, Option.Rel Json.Alike (get? k ms) (get? k ns) := by
  generalize hu : Json.object ms = u at h
  cases h with
  | refl =>
    subst hu
    refine ⟨ms, rfl, fun k => ?_⟩
    cases get? k ms with
    | none => exact .none
    | some w => exact .some (.refl w)
  | array => cases hu
  | @object _ ns hnames hvalues =>
    cases hu
    refine ⟨ns, rfl, fun k => ?_⟩
    cases hm : get? k ms with
    | none =>
      rw [(hnames k).1 hm]
      exact .none
    | some w =>
      cases hn : get? k ns with
      | none => rw [(hnames k).2 hn] at hm; cases hm
      | some x => exact .some (hvalues k w x hm hn)

theorem relates_alike : Relates fun u v => Json.Alike u v ∧ u.Distinct ∧ v.Distinct where
  scalar {u v} h hu := by
    obtain ⟨halike, -⟩ := h
    cases halike with
    | refl => rfl
    | _ => cases hu
  array {xs v} h := by
    obtain ⟨halike, hxs, hv⟩ := h
    generalize hu : Json.array xs = u at halike
    cases halike with
    | refl =>
      subst hu
      exact ⟨xs, rfl, fun y hy => ⟨y, hy, .refl y, Json.distinctItems_iff.1 hxs y hy,
        Json.distinctItems_iff.1 hxs y hy⟩⟩
    | object => cases hu
    | @array _ ys hlength hitems =>
      cases hu
      refine ⟨ys, rfl, fun y hy => ?_⟩
      obtain ⟨i, hi, rfl⟩ := List.getElem_of_mem hy
      have hx : xs[i]? = some xs[i] := List.getElem?_eq_getElem _
      exact ⟨_, List.mem_of_getElem? hx, hitems i _ _ hx (List.getElem?_eq_getElem hi),
        Json.distinctItems_iff.1 hxs _ (List.mem_of_getElem? hx), Json.distinctItems_iff.1 hv _ hy⟩
  object {ms v} h := by
    obtain ⟨halike, hms, hv⟩ := h
    obtain ⟨ns, rfl, hrel⟩ := rel_of_alike halike
    have hdistinct : ∀ {k w} {ls : List _}, (Json.object ls).Distinct →
        get? k ls = some w → w.Distinct := fun hls hk =>
      Json.distinctMembers_iff.1 hls.2 _ (mem_of_get?_eq_some hk)
    refine ⟨ns, rfl, fun k => ?_, fun n hn => ?_⟩
    · have hk := hrel k
      generalize hm : get? k ms = x at hk ⊢
      generalize hn : get? k ns = y at hk ⊢
      cases hk with
      | none => exact .none
      | some hw => exact .some ⟨hw, hdistinct hms hm, hdistinct hv hn⟩
    · have hk := hrel n.1
      rw [(get?_eq_some_iff hv.1).2 hn] at hk
      generalize hm : get? n.1 ms = x at hk
      cases hk with
      | some hw => exact ⟨_, mem_of_get?_eq_some hm, rfl, hw, hdistinct hms hm,
          Json.distinctMembers_iff.1 hv.2 n hn⟩

theorem Schema.Conforms.alike {u v : Json} (hu : u.Distinct) (hv : v.Distinct)
    (halike : Json.Alike u v) (h : schema.Conforms u) : schema.Conforms v := by
  obtain ⟨calls, h⟩ := h
  have hcarries : CarriesPlain (fun u v => Json.Alike u v ∧ u.Distinct ∧ v.Distinct)
      (fun _ => True) _ :=
    { relates_alike with
      ofPlain := fun _ _ => trivial
      front := fun _ _ _ _ _ => trivial }
  exact ⟨calls, hcarries.within (Nat.le_refl _) ⟨halike, hu, hv⟩ h⟩

end SchemaCompiler.TypeDefinition
