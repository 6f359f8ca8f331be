import Mathlib.Data.List.Basic
import SchemaCompiler.Proofs.Assoc
import SchemaCompiler.TypeDefinition.Unit

/-!
# Well-formed forms

What holds of the forms of a type definition that has been read: no property is named twice, tags
select objects of which the tag is no property, and names that are referred to are known. Functions
are begun for such names, each once, so there is room for no more of them than there are names.
-/
namespace SchemaCompiler.TypeDefinition
namespace Form

def LeavesOut (tag : String) : Form → Prop
  | properties required optional _ =>
    tag ∉ required.map Prod.fst ∧ tag ∉ optional.map Prod.fst
  | _ => False

mutual
/-- A form refers to known names, names no property or tag value twice, and has tags that select
objects. -/
def WellFormed (known : String → Prop) : Form → Prop
  | ref name => known name
  | elements item => WellFormed known item
  | values item => WellFormed known item
  | nullable form => WellFormed known form
  | properties required optional _ =>
    (required.map Prod.fst ++ optional.map Prod.fst).Nodup ∧ AllWellFormed known required ∧
      AllWellFormed known optional
  | discriminator tag mapping =>
    (mapping.map Prod.fst).Nodup ∧ (∀ m ∈ mapping, m.2.LeavesOut tag) ∧ AllWellFormed known mapping
  | empty => True
  | type _ => True
  | enum _ => True

def AllWellFormed (known : String → Prop) : List (String × Form) → Prop
  | [] => True
  | (_, form) :: rest => WellFormed known form ∧ AllWellFormed known rest
end

theorem allWellFormed_iff {known : String → Prop} {members : List (String × Form)} :
    AllWellFormed known members ↔ ∀ m ∈ members, m.2.WellFormed known := by
  induction members with
  | nil => simp [AllWellFormed]
  | cons m rest ih => simp [AllWellFormed, ih]

theorem anyHasRef_eq_false_iff {members : List (String × Form)} :
    anyHasRef members = false ↔ ∀ m ∈ members, m.2.hasRef = false := by
  induction members with
  | nil => simp [anyHasRef]
  | cons m rest ih => simp [anyHasRef, ih]

/-- Induction on forms, with what holds of each of several forms. -/
theorem induction_members {motive : Form → Prop} (empty : motive .empty)
    (ref : ∀ name, motive (.ref name)) (type : ∀ t, motive (.type t))
    (enum : ∀ texts, motive (.enum texts)) (elements : ∀ item, motive item → motive (.elements item))
    (properties : ∀ required optional additional, (∀ m ∈ required, motive m.2) →
      (∀ m ∈ optional, motive m.2) → motive (.properties required optional additional))
    (values : ∀ item, motive item → motive (.values item))
    (discriminator : ∀ tag mapping, (∀ m ∈ mapping, motive m.2) →
      motive (.discriminator tag mapping))
    (nullable : ∀ form, motive form → motive (.nullable form)) (form : Form) : motive form :=
  @Form.rec motive _ _ empty ref type
    enum elements properties values discriminator nullable (by simp)
    (fun _ _ hm hrest => List.forall_mem_cons.2 ⟨hm, hrest⟩) (fun _ _ => id) form

theorem WellFormed.of_not_hasRef {known known' : String → Prop} (form : Form)
    (h : form.hasRef = false) (hf : form.WellFormed known) : form.WellFormed known' := by
  have hall : ∀ {members : List _}, (∀ m ∈ members, m.2.hasRef = false →
      m.2.WellFormed known → m.2.WellFormed known') → anyHasRef members = false →
        AllWellFormed known members → AllWellFormed known' members := by
    intro members ih h hf
    rw [anyHasRef_eq_false_iff] at h
    rw [allWellFormed_iff] at hf ⊢
    exact fun m hm => ih m hm (h m hm) (hf m hm)
  induction form using induction_members with
  | empty | type | enum => trivial
  | ref name => simp [hasRef] at h
  | elements item ih | values item ih | nullable item ih => exact ih (by simpa [hasRef] using h) hf
  | properties required optional _ ih ih' =>
    simp only [hasRef, Bool.or_eq_false_iff] at h
    exact ⟨hf.1, hall ih h.1 hf.2.1, hall ih' h.2 hf.2.2⟩
  | discriminator tag mapping ih =>
    exact ⟨hf.1, hf.2.1, hall ih (by simpa [hasRef] using h) hf.2.2⟩

end Form

/-- A type definition is well-formed: its forms are, and they refer to names that stand for forms. -/
structure Schema.WellFormed (schema : Schema) : Prop where
  root : schema.root.WellFormed fun name => Assoc.contains name schema.definitions = true
  definitions : ∀ m ∈ schema.definitions,
    m.2.WellFormed fun name => Assoc.contains name schema.definitions = true

/-! ## Names without a function -/

section Room

variable (definitions : List (String × Form)) {defined later : Defined} {name : String} {f : Name}

/-- For how many names functions can still be begun. -/
def room (defined : Defined) : Nat :=
  (definitions.filter fun d => !Assoc.contains d.1 defined).length

theorem room_le (h : ∀ name f, Assoc.get? name defined = some f → Assoc.get? name later = some f) :
    room definitions later ≤ room definitions defined := by
  refine List.Sublist.length_le (List.monotone_filter_right _ ?_)
  intro d hd
  simp only [Assoc.contains] at hd ⊢
  cases ha : Assoc.get? d.1 defined with
  | none => rfl
  | some f => rw [h _ _ ha] at hd; cases hd

variable {definitions}

theorem room_insert {form : Form} (hform : Assoc.get? name definitions = some form)
    (hnew : Assoc.get? name defined = none) :
    room definitions (Assoc.insert name f defined) < room definitions defined := by
  have hweaker : (definitions.filter fun d => !Assoc.contains d.1 (Assoc.insert name f defined)) =
      (definitions.filter fun d => !Assoc.contains d.1 defined).filter
        fun d => !Assoc.contains d.1 (Assoc.insert name f defined) := by
    rw [List.filter_filter]
    refine List.filter_congr fun d _ => ?_
    by_cases hd : d.1 = name
    · simp [Assoc.contains, hd, Assoc.get?_insert_self]
    · simp [Assoc.contains, Assoc.get?_insert_of_ne hd]
  rw [room, hweaker, room, List.length_filter_lt_length_iff_exists]
  refine ⟨(name, form), ?_, by simp [Assoc.contains, Assoc.get?_insert_self]⟩
  simp [Assoc.contains, hnew, Assoc.mem_of_get?_eq_some hform]

end Room

end SchemaCompiler.TypeDefinition
