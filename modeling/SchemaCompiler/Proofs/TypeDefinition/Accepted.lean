import SchemaCompiler.Proofs.Decode.Results
import SchemaCompiler.Proofs.TypeDefinition.WellFormed

/-!
# Accepted type definitions are well-formed

A document that has been decoded names nothing twice in its maps. Folding it into a form and checking
its references settles the rest of well-formedness.
-/
namespace SchemaCompiler.TypeDefinition

namespace Document

mutual
def Tidy : Document → Prop
  | .mk definitions _ _ _ _ elements properties optional _ values _ mapping =>
    TidyMap definitions ∧ TidyOf elements ∧ TidyMap properties ∧ TidyMap optional ∧ TidyOf values ∧
      TidyMap mapping

def TidyOf : Option Document → Prop
  | none => True
  | some d => Tidy d

def TidyMap : Option (List (String × Document)) → Prop
  | none => True
  | some ds => (ds.map Prod.fst).Nodup ∧ TidyAll ds

def TidyAll : List (String × Document) → Prop
  | [] => True
  | (_, d) :: rest => Tidy d ∧ TidyAll rest
end

theorem tidyAll_iff {ds : List (String × Document)} : TidyAll ds ↔ ∀ d ∈ ds, d.2.Tidy := by
  induction ds with
  | nil => simp [TidyAll]
  | cons d rest ih => simp [TidyAll, ih]

open Decode in
theorem promises_decodeTo (depth : Nat) : Promises (decodeTo depth) Tidy := by
  induction depth with
  | zero => intro _ _ _ h; cases h
  | succ depth ih =>
    intro source draft d h
    have hmap : ∀ {key : String} {found : Option (List _)},
        (Decode.optional key (Decode.map (decodeTo depth))).Makes found → TidyMap found := by
      intro key found hfound
      have hall := hfound.optional (promises_map ih)
      cases found with
      | none => trivial
      | some ds => exact ⟨(hall ds rfl).1, tidyAll_iff.2 (hall ds rfl).2⟩
    have hof : ∀ {key : String} {found : Option Document},
        (Decode.optional key (decodeTo depth)).Makes found → TidyOf found := by
      intro key found hfound
      have hall := hfound.optional ih
      cases found with
      | none => trivial
      | some d => exact hall d rfl
    rw [decodeTo, bind_eq_ok] at h
    obtain ⟨⟨definitions, nullable, metadata, ref, type, enum, elements, properties, optional,
      additional, values, discriminator, mapping, _⟩, hrecord, heq⟩ := h
    cases heq
    obtain ⟨hdefinitions, -, -, -, -, -, helements, hproperties, hoptional, -, hvalues, -, hmapping,
      -⟩ := made_record hrecord
    exact ⟨hmap hdefinitions, hof helements, hmap hproperties, hmap hoptional, hof hvalues,
      hmap hmapping⟩

/-! ## Forms -/

theorem wellFormed_propertiesForm {known : String → Prop} {path : String}
    {required optional : List (String × Form)} {additional : Bool} {form : Form}
    (h : propertiesForm path required optional additional = .ok form)
    (hrequired : (required.map Prod.fst).Nodup ∧ Form.AllWellFormed known required)
    (hoptional : (optional.map Prod.fst).Nodup ∧ Form.AllWellFormed known optional) :
    form.WellFormed known := by
  unfold propertiesForm at h
  split at h
  · cases h
  · rename_i hfind
    cases h
    refine ⟨List.nodup_append.2 ⟨hrequired.1, hoptional.1, ?_⟩, hrequired.2, hoptional.2⟩
    rintro a ha b hb rfl
    obtain ⟨m, hm, rfl⟩ := List.mem_map.1 ha
    have hnone := List.find?_eq_none.1 hfind m hm
    refine hnone (Option.isSome_iff_ne_none.2 fun hget => ?_)
    exact Assoc.get?_eq_none_iff.1 hget hb

theorem leavesOut_of_checkMapping {path tag : String} {mapping : List (String × Form)}
    (h : checkMapping path tag mapping = .ok ()) : ∀ m ∈ mapping, m.2.LeavesOut tag := by
  fun_induction checkMapping path tag mapping with
  | case1 => simp
  | case2 => cases h
  | case3 value required optional additional rest hcontains ih =>
    simp only [Bool.or_eq_true, not_or, Assoc.contains, Bool.not_eq_true, Option.isSome_eq_false_iff,
      Option.isNone_iff_eq_none, Assoc.get?_eq_none_iff] at hcontains
    intro m hm
    rcases List.mem_cons.1 hm with rfl | hm
    · exact hcontains
    · exact ih h m hm
  | case4 => cases h

theorem wellFormed_enumForm {known : String → Prop} {path : String} {texts : List String} {form : Form}
    (h : enumForm path texts = .ok form) : form.WellFormed known := by
  unfold enumForm at h
  split at h
  · cases h
  · split at h
    · cases h
    · cases h
      trivial

mutual
/-- The form of a tidy document is well-formed, but for the names that it refers to. -/
theorem wellFormed_form : (path : String) → (d : Document) → d.Tidy → {f : Form} →
    form path d = .ok f → f.WellFormed fun _ => True
  | path, .mk definitions isNullable ref type enum elements properties optional additional values
      discriminator mapping, hd, f, h => by
    obtain ⟨-, helements, hproperties, hoptional, hvalues, hmapping⟩ := hd
    have hend : ∀ x : Except CompileError Form, (∀ g, x = .ok g → g.WellFormed fun _ => True) →
        (x >>= fun g => pure (if isNullable then .nullable g else g)) = .ok f →
          f.WellFormed fun _ => True := by
      intro x hx h
      obtain ⟨g, hg, heq⟩ := bind_eq_ok.1 h
      cases heq
      split <;> exact hx g hg
    rw [form] at h
    split at h
    · cases h
    · dsimp only at h
      split at h
      · exact hend _ (fun g hg => by cases hg; trivial) h
      · exact hend _ (fun g hg => by cases hg; trivial) h
      · exact hend _ (fun g hg => wellFormed_enumForm hg) h
      · obtain ⟨item, hitem, h⟩ := bind_eq_ok.1 h
        split at h
        · have hwf := wellFormed_formOf _ elements helements hitem
          refine hend _ (fun g hg => ?_) h
          cases hg
          exact hwf
        · split at h
          · obtain ⟨required, hrequired, h⟩ := bind_eq_ok.1 h
            obtain ⟨others, hothers, h⟩ := bind_eq_ok.1 h
            exact hend _ (fun g hg => wellFormed_propertiesForm hg
              (wellFormed_formsOf _ properties hproperties hrequired)
              (wellFormed_formsOf _ optional hoptional hothers)) h
          · obtain ⟨item, hitem, h⟩ := bind_eq_ok.1 h
            split at h
            · have hwf := wellFormed_formOf _ values hvalues hitem
              refine hend _ (fun g hg => ?_) h
              cases hg
              exact hwf
            · split at h
              · exact hend _ (fun g hg => by cases hg; trivial) h
              · obtain ⟨forms, hforms, h⟩ := bind_eq_ok.1 h
                obtain ⟨_, hcheck, h⟩ := bind_eq_ok.1 h
                refine hend _ (fun g hg => ?_) h
                cases hg
                obtain ⟨hnames, hall⟩ := wellFormed_formsOf _ mapping hmapping hforms
                exact ⟨hnames, leavesOut_of_checkMapping hcheck, hall⟩

theorem wellFormed_formOf : (path : String) → (d : Option Document) → TidyOf d → {f : Form} →
    formOf path d = .ok (some f) → f.WellFormed fun _ => True
  | _, none, _, _, h => by cases h
  | path, some d, hd, f, h => by
    obtain ⟨g, hg, heq⟩ := map_eq_ok.1 h
    cases heq
    exact wellFormed_form path d hd hg

theorem wellFormed_formsOf : (path : String) → (ds : Option (List (String × Document))) →
    TidyMap ds → {fs : List (String × Form)} → formsOf path ds = .ok fs →
      (fs.map Prod.fst).Nodup ∧ Form.AllWellFormed (fun _ => True) fs
  | _, none, _, _, h => by
    cases h
    exact ⟨List.nodup_nil, trivial⟩
  | path, some ds, hds, fs, h => by
    obtain ⟨hnames, hall⟩ := wellFormed_forms path ds hds.2 h
    exact ⟨hnames ▸ hds.1, hall⟩

theorem wellFormed_forms : (path : String) → (ds : List (String × Document)) → TidyAll ds →
    {fs : List (String × Form)} → forms path ds = .ok fs →
      fs.map Prod.fst = ds.map Prod.fst ∧ Form.AllWellFormed (fun _ => True) fs
  | _, [], _, _, h => by
    cases h
    exact ⟨rfl, trivial⟩
  | path, (key, d) :: rest, hds, fs, h => by
    simp only [forms, bind_eq_ok] at h
    obtain ⟨f, hf, others, hothers, heq⟩ := h
    cases heq
    obtain ⟨hnames, hall⟩ := wellFormed_forms path rest hds.2 hothers
    exact ⟨by simp [hnames], wellFormed_form _ d hds.1 hf, hall⟩
end

end Document

namespace Schema

mutual
theorem wellFormed_of_checkRefs {known : List (String × Form)} : (path : String) → (form : Form) →
    form.WellFormed (fun _ => True) → checkRefs known path form = .ok () →
      form.WellFormed fun name => Assoc.contains name known = true
  | _, .empty, _, _ | _, .type _, _, _ | _, .enum _, _, _ => trivial
  | path, .ref name, _, h => by
    rw [checkRefs] at h
    split at h
    · assumption
    · cases h
  | path, .elements item, hf, h => wellFormed_of_checkRefs _ item hf h
  | path, .values item, hf, h => wellFormed_of_checkRefs _ item hf h
  | path, .nullable form, hf, h => wellFormed_of_checkRefs path form hf h
  | path, .properties required optional _, hf, h => by
    rw [checkRefs, bind_eq_ok] at h
    obtain ⟨_, hrequired, hoptional⟩ := h
    exact ⟨hf.1, wellFormed_of_checkRefsIn _ required hf.2.1 hrequired,
      wellFormed_of_checkRefsIn _ optional hf.2.2 hoptional⟩
  | path, .discriminator _ mapping, hf, h =>
    ⟨hf.1, hf.2.1, wellFormed_of_checkRefsIn _ mapping hf.2.2 h⟩

theorem wellFormed_of_checkRefsIn {known : List (String × Form)} : (path : String) →
    (members : List (String × Form)) → Form.AllWellFormed (fun _ => True) members →
      checkRefsIn known path members = .ok () →
        Form.AllWellFormed (fun name => Assoc.contains name known = true) members
  | _, [], _, _ => trivial
  | path, (key, form) :: rest, hf, h => by
    rw [checkRefsIn, bind_eq_ok] at h
    obtain ⟨_, hform, hrest⟩ := h
    exact ⟨wellFormed_of_checkRefs _ form hf.1 hform, wellFormed_of_checkRefsIn path rest hf.2 hrest⟩
end

theorem wellFormed_of_ofJson {v : Json} {schema : Schema} (h : Schema.ofJson v = .ok schema) :
    schema.WellFormed := by
  simp only [Schema.ofJson, bind_eq_ok] at h
  obtain ⟨d, hd, definitions, hdefinitions, root, hroot, _, hchecked, _, hcheckedIn, heq⟩ := h
  cases heq
  have htidy : d.Tidy := by
    unfold Document.ofJson at hd
    split at hd
    · rename_i hdecoded
      cases hd
      exact Document.promises_decodeTo _ _ _ _ hdecoded
    · cases hd
  have htidyMap : Document.TidyAll d.definitions := by
    cases d with
    | mk definitions =>
      cases definitions with
      | none => trivial
      | some ds => exact htidy.1.2
  refine ⟨wellFormed_of_checkRefs "" root (Document.wellFormed_form "" d htidy hroot) hchecked, ?_⟩
  exact Form.allWellFormed_iff.1 (wellFormed_of_checkRefsIn _ definitions
    (Document.wellFormed_forms _ _ htidyMap hdefinitions).2 hcheckedIn)

end Schema

end SchemaCompiler.TypeDefinition
