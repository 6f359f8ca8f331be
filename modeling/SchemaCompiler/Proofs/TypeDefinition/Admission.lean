import Mathlib.Data.List.Forall2
import SchemaCompiler.Proofs.Json.Alike
import SchemaCompiler.Proofs.TypeDefinition.Conformance
import SchemaCompiler.Proofs.TypeDefinition.WellFormed

/-!
# What a value as written is read as

A parser reads a value as it is written, with its members in the order of the text and with names
that may be repeated. Here a form is given such a value, and not its text: it takes it as a value of
the form, or refuses it. The members of an object are taken one after the other, so that a repeated
name counts with its last value; a tag is looked for first, and may stand only once.

What is taken is, up to the order of members, the value as written, and it is of the form. Where no
name is repeated, every value of the form is taken.
-/
namespace SchemaCompiler.TypeDefinition

open Assoc

variable {members written fields : List (String × Json)} {known : String → Prop} {v : Json}
  {m : String × Json} {conforms : Json → Prop} {so so' : List (String × Json) × Bool}
  {name k value : String} {items : List Json} {additional : Bool}

def Shallow (v : Json) : Prop := v.nesting < Json.nestingLimit

instance (v : Json) : Decidable (Shallow v) := inferInstanceAs (Decidable (_ < _))

theorem Shallow.settled (h : Shallow v) : Shallow v.settled :=
  Nat.lt_of_le_of_lt (Json.nesting_settled_le v) h

/-! ## Taking a value -/

def admitPlain (u : Json) : Option Json := if Shallow u then some u.settled else none

/-- Takes one member. `known` takes the values of members that are known by name; the tag is taken
once. -/
def admitMember (known : String → Option (Json → Option Json)) (additional : Bool)
    (tag : Option String) (so : List (String × Json) × Bool) (m : String × Json) :
    Option (List (String × Json) × Bool) :=
  match known m.1 with
  | some read => (read m.2).map fun v => (Assoc.insert m.1 v so.1, so.2)
  | none =>
    if tag = some m.1 then if so.2 then none else m.2.string?.map fun _ => (so.1, true)
    else if additional then (admitPlain m.2).map fun v => (Assoc.insert m.1 v so.1, so.2)
    else none

def admitMembers (known : String → Option (Json → Option Json)) (additional : Bool)
    (tag : Option String) (required : List String) (so : List (String × Json))
    (members : List (String × Json)) : Option Json :=
  (members.foldlM (admitMember known additional tag) (so, false)).bind fun all =>
    if required.all fun name => Assoc.contains name all.1 then some (.object all.1) else none

/-- The tag value of an object: the first member with the name of the tag has to be a text. -/
def admitTag (tag : String) : List (String × Json) → Option String
  | [] => none
  | (key, v) :: rest =>
    if key = tag then v.string? else if Shallow v then admitTag tag rest else none

namespace Form

mutual
def accept (onRef : String → Json → Option Json) : Form → Json → Option Json
  | empty, u => admitPlain u
  | ref name, u => onRef name u
  | type t, u => if t.holds u then some u else none
  | enum texts, u => u.string?.bind fun s => if texts.contains s then some u else none
  | elements item, u => u.array?.bind fun items => (items.mapM (accept onRef item)).map .array
  | values item, u => u.object?.bind fun members =>
    (members.foldlM (fun so m => (accept onRef item m.2).map fun v => Assoc.insert m.1 v so) []).map
      .object
  | properties required optional additional, u => u.object?.bind fun members =>
    admitMembers (fun key => (admitKnown onRef key required).or (admitKnown onRef key optional))
      additional none (required.map Prod.fst) [] members
  | discriminator tag mapping, u => u.object?.bind fun members =>
    (admitTag tag members).bind fun value => admitMapped onRef tag value members mapping
  | nullable form, u => if u = .null then some .null else accept onRef form u

def admitKnown (onRef : String → Json → Option Json) (key : String) :
    List (String × Form) → Option (Json → Option Json)
  | [] => none
  | (name, form) :: rest => if key = name then some (accept onRef form) else admitKnown onRef key rest

def admitMapped (onRef : String → Json → Option Json) (tag value : String)
    (members : List (String × Json)) : List (String × Form) → Option Json
  | [] => none
  | (name, form) :: rest =>
    if value = name then admitSelected onRef tag value members form
    else admitMapped onRef tag value members rest

def admitSelected (onRef : String → Json → Option Json) (tag value : String)
    (members : List (String × Json)) : Form → Option Json
  | properties required optional additional =>
    admitMembers (fun key => (admitKnown onRef key required).or (admitKnown onRef key optional))
      additional (some tag) (required.map Prod.fst) [(tag, .string value)] members
  | _ => none
end

def named (required optional : List (String × Form)) (key : String) : Option Form :=
  (get? key required).or (get? key optional)

theorem admitKnown_eq (onRef : String → Json → Option Json) (key : String)
    (members : List (String × Form)) :
    admitKnown onRef key members = (get? key members).map (accept onRef) := by
  induction members with
  | nil => rfl
  | cons m rest ih =>
    obtain ⟨name, form⟩ := m
    by_cases hk : key = name <;> simp [admitKnown, get?_cons, hk, ih]

theorem admitKnown_or (onRef : String → Json → Option Json) (required optional : List (String × Form)) :
    (fun key => (admitKnown onRef key required).or (admitKnown onRef key optional)) =
      fun key => (named required optional key).map (accept onRef) := by
  funext key
  rw [admitKnown_eq, admitKnown_eq, named]
  cases get? key required <;> rfl

end Form

/-! ## The members of an object of a form -/

namespace Form

variable {plain : Json → Prop} {onRef : String → Json → Prop}
  {required optional forms : List (String × Form)} {additional : Bool} {tag : Option String}
  {members : List (String × Json)} {f : String × Form}

/-- A member is of the form that its name has; without one it is the tag, or is allowed as an
additional member. -/
def Fits (plain : Json → Prop) (onRef : String → Json → Prop)
    (required optional : List (String × Form)) (additional : Bool) (tag : Option String)
    (m : String × Json) : Prop :=
  match named required optional m.1 with
  | some form => form.Conforms plain onRef m.2
  | none => tag = some m.1 ∨ (additional = true ∧ plain m.2)

theorem requiredConform_iff : RequiredConform plain onRef members forms ↔
      ∀ f ∈ forms, ∃ v, get? f.1 members = some v ∧ f.2.Conforms plain onRef v := by
  induction forms with
  | nil => simp [RequiredConform]
  | cons f rest ih => simp [RequiredConform, ih]

theorem optionalConform_iff : OptionalConform plain onRef members forms ↔
      ∀ f ∈ forms, ∀ v, get? f.1 members = some v → f.2.Conforms plain onRef v := by
  induction forms with
  | nil => simp [OptionalConform]
  | cons f rest ih => simp [OptionalConform, ih]

theorem named_of_mem_required (h : (required.map Prod.fst ++ optional.map Prod.fst).Nodup)
    (hf : f ∈ required) : named required optional f.1 = some f.2 := by
  rw [named, (get?_eq_some_iff (List.nodup_append.1 h).1).2 hf]
  rfl

theorem named_of_mem_optional (h : (required.map Prod.fst ++ optional.map Prod.fst).Nodup)
    (hf : f ∈ optional) : named required optional f.1 = some f.2 := by
  have hnone : get? f.1 required = none := get?_eq_none_iff.2 fun hmem =>
    (List.nodup_append.1 h).2.2 _ hmem _ (List.mem_map_of_mem hf) rfl
  rw [named, hnone, (get?_eq_some_iff (List.nodup_append.1 h).2.1).2 hf]
  rfl

theorem mem_of_named {key : String} {form : Form} (h : named required optional key = some form) :
    (key, form) ∈ required ∨ (key, form) ∈ optional := by
  unfold named at h
  cases hr : get? key required with
  | some f =>
    rw [hr] at h
    cases h
    exact .inl (mem_of_get?_eq_some hr)
  | none =>
    rw [hr] at h
    exact .inr (mem_of_get?_eq_some h)

theorem object_iff (h : (required.map Prod.fst ++ optional.map Prod.fst).Nodup)
    (hmembers : (members.map Prod.fst).Nodup) :
    (RequiredConform plain onRef members required ∧ OptionalConform plain onRef members optional ∧
        Covers plain required optional additional tag members) ↔
      (∀ name ∈ required.map Prod.fst, Assoc.contains name members = true) ∧
        ∀ m ∈ members, Fits plain onRef required optional additional tag m := by
  rw [requiredConform_iff, optionalConform_iff]
  constructor
  · rintro ⟨hrequired, hoptional, hcovers⟩
    refine ⟨fun name hname => ?_, fun m hm => ?_⟩
    · obtain ⟨f, hf, rfl⟩ := List.mem_map.1 hname
      obtain ⟨v, hv, -⟩ := hrequired f hf
      simp [Assoc.contains, hv]
    · have hget : get? m.1 members = some m.2 := (get?_eq_some_iff hmembers).2 hm
      unfold Fits
      cases hform : named required optional m.1 with
      | some form =>
        rcases mem_of_named hform with hf | hf
        · obtain ⟨v, hv, hconforms⟩ := hrequired _ hf
          rw [hget, Option.some_inj] at hv
          exact hv ▸ hconforms
        · exact hoptional _ hf _ hget
      | none =>
        obtain ⟨hr, ho⟩ := Option.or_eq_none_iff.1 hform
        rcases hcovers m hm with hmem | hmem | hrest
        · exact absurd hmem (get?_eq_none_iff.1 hr)
        · exact absurd hmem (get?_eq_none_iff.1 ho)
        · exact hrest
  · rintro ⟨hrequired, hfits⟩
    have hform : ∀ {f : String × Form} {v : Json}, named required optional f.1 = some f.2 →
        get? f.1 members = some v → f.2.Conforms plain onRef v := by
      intro f v hnamed hv
      have hfit := hfits _ (mem_of_get?_eq_some hv)
      rw [Fits, hnamed] at hfit
      exact hfit
    refine ⟨fun f hf => ?_, fun f hf v hv => hform (named_of_mem_optional h hf) hv, fun m hm => ?_⟩
    · obtain ⟨v, hv⟩ := Option.isSome_iff_exists.1 (hrequired f.1 (List.mem_map_of_mem hf))
      exact ⟨v, hv, hform (named_of_mem_required h hf) hv⟩
    · have hfit := hfits m hm
      unfold Fits at hfit
      cases hnamed : named required optional m.1 with
      | some form =>
        rcases mem_of_named hnamed with hf | hf
        · exact .inl (List.mem_map_of_mem hf)
        · exact .inr (.inl (List.mem_map_of_mem hf))
      | none =>
        rw [hnamed] at hfit
        exact .inr (.inr hfit)

end Form

/-! ## What is taken -/

/-- What is taken is the value as written up to the order of members, and is one of those that
conform; and those are taken, if no name is repeated in them. -/
structure Judges (accept : Json → Option Json) (conforms : Json → Prop) : Prop where
  sound {u v : Json} : accept u = some v → Json.Alike u.settled v ∧ conforms v ∧ v.Distinct
  complete {u : Json} : u.Distinct → conforms u → ∃ v, accept u = some v

theorem judges_plain : Judges admitPlain Shallow where
  sound {u v} h := by
    unfold admitPlain at h
    split at h
    · rename_i hu
      cases h
      exact ⟨.refl _, hu.settled, Json.distinct_settled u⟩
    · cases h
  complete {u} _ h := ⟨u.settled, if_pos h⟩

theorem ScalarType.settled_of_holds {t : ScalarType} {u : Json} (h : t.holds u = true) :
    u.settled = u ∧ u.Distinct := by
  cases u with
  | array items | object items =>
    cases t <;> simp [ScalarType.holds, ScalarType.bounds?, isBetween] at h
  | _ => exact ⟨rfl, trivial⟩

theorem judges_type (t : ScalarType) :
    Judges (fun u => if t.holds u then some u else none) (t.holds · = true) where
  sound {u v} h := by
    split at h
    · rename_i hu
      cases h
      obtain ⟨hsettled, hdistinct⟩ := ScalarType.settled_of_holds hu
      exact ⟨by rw [hsettled]; exact .refl u, hu, hdistinct⟩
    · cases h
  complete {u} _ h := ⟨u, if_pos h⟩

theorem string?_eq_some {s : String} : v.string? = some s ↔ v = .string s := by
  cases v <;> simp [Json.string?]

theorem array?_eq_some : v.array? = some items ↔ v = .array items := by
  cases v <;> simp [Json.array?]

theorem object?_eq_some : v.object? = some members ↔ v = .object members := by
  cases v <;> simp [Json.object?]

theorem judges_enum (texts : List String) :
    Judges (fun u => u.string?.bind fun s => if texts.contains s then some u else none)
      fun v => ∃ s ∈ texts, v = .string s where
  sound {u v} h := by
    obtain ⟨s, hs, h⟩ := Option.bind_eq_some_iff.1 h
    rw [string?_eq_some] at hs
    subst hs
    split at h
    · rename_i hmem
      cases h
      exact ⟨.refl _, ⟨s, List.contains_iff_mem.1 hmem, rfl⟩, trivial⟩
    · cases h
  complete {u} _ h := by
    obtain ⟨s, hs, rfl⟩ := h
    exact ⟨.string s, by simp [Json.string?, hs]⟩

/-! ### Arrays -/

theorem forall₂_of_mapM {accept : Json → Option Json} {vs : List Json}
    (h : items.mapM accept = some vs) : List.Forall₂ (fun u v => accept u = some v) items vs := by
  induction items generalizing vs with
  | nil =>
    cases h
    exact .nil
  | cons u rest ih =>
    simp only [List.mapM_cons, Option.bind_eq_bind, Option.bind_eq_some_iff] at h
    obtain ⟨v, hv, ws, hws, hcons⟩ := h
    cases hcons
    exact .cons hv (ih hws)

theorem exists_mapM {accept : Json → Option Json}
    (h : ∀ u ∈ items, ∃ v, accept u = some v) : ∃ vs, items.mapM accept = some vs := by
  induction items with
  | nil => exact ⟨[], rfl⟩
  | cons u rest ih =>
    obtain ⟨v, hv⟩ := h u (by simp)
    obtain ⟨vs, hvs⟩ := ih fun w hw => h w (by simp [hw])
    exact ⟨v :: vs, by simp [hv, hvs]⟩

theorem alike_array {xs ys : List Json} (h : List.Forall₂ Json.Alike xs ys) :
    Json.Alike (.array xs) (.array ys) := by
  refine .array h.length_eq fun i x y hx hy => ?_
  obtain ⟨hi, rfl⟩ := List.getElem?_eq_some_iff.1 hx
  obtain ⟨hj, rfl⟩ := List.getElem?_eq_some_iff.1 hy
  exact h.get hi hj

theorem judges_elements {accept : Json → Option Json} (h : Judges accept conforms) :
    Judges (fun u => u.array?.bind fun items => (items.mapM accept).map .array)
      fun v => ∃ items, v = .array items ∧ ∀ w ∈ items, conforms w where
  sound {u v} hu := by
    obtain ⟨items, hitems, hv⟩ := Option.bind_eq_some_iff.1 hu
    rw [array?_eq_some] at hitems
    subst hitems
    obtain ⟨vs, hvs, rfl⟩ := Option.map_eq_some_iff.1 hv
    have hall := forall₂_of_mapM hvs
    have htaken : ∀ w ∈ vs, conforms w ∧ w.Distinct := by
      intro w hw
      obtain ⟨i, hi, rfl⟩ := List.getElem_of_mem hw
      exact (h.sound (hall.get (hall.length_eq ▸ hi) hi)).2
    refine ⟨?_, ⟨vs, rfl, fun w hw => (htaken w hw).1⟩,
      Json.distinctItems_iff.2 fun w hw => (htaken w hw).2⟩
    rw [Json.settled_array]
    exact alike_array (List.forall₂_map_left_iff.2 (hall.imp fun u w hu => (h.sound hu).1))
  complete {u} hd hu := by
    obtain ⟨items, rfl, hall⟩ := hu
    have hd := Json.distinctItems_iff.1 hd
    obtain ⟨vs, hvs⟩ := exists_mapM fun w hw => h.complete (hd w hw) (hall w hw)
    exact ⟨.array vs, by simp [Json.array?, hvs]⟩

/-! ### Objects -/

section Folds

variable {α σ : Type} {step : σ → α → Option σ} (inv : List α → σ → Prop)

theorem exists_foldlM (hstep : ∀ x rest so, inv (x :: rest) so → ∃ so', step so x = some so' ∧ inv rest so')
    {xs : List α} {so : σ} (hinv : inv xs so) : ∃ so', xs.foldlM step so = some so' ∧ inv [] so' := by
  induction xs generalizing so with
  | nil => exact ⟨so, rfl, hinv⟩
  | cons x rest ih =>
    obtain ⟨next, hnext, hinv⟩ := hstep x rest so hinv
    obtain ⟨so', hso', hend⟩ := ih hinv
    exact ⟨so', by simp [hnext, hso'], hend⟩

end Folds

def writtenBehind (written members : List (String × Json)) : List (String × Json) :=
  (members.map fun m => (m.1, m.2.settled)).foldl (fun acc e => Assoc.insert e.1 e.2 acc) written

theorem settled_object_eq (members : List (String × Json)) :
    (Json.object members).settled = .object (writtenBehind [] members) :=
  Json.settled_object members

theorem alike_object (h : ∀ k, Option.Rel Json.Alike (get? k written) (get? k members)) :
    Json.Alike (.object written) (.object members) := by
  refine .object (fun k => ?_) fun k v w hv hw => ?_
  · have hk := h k
    generalize get? k written = x at hk ⊢
    generalize get? k members = y at hk ⊢
    cases hk <;> simp
  · have hk := h k
    rw [hv, hw] at hk
    cases hk
    assumption

/-- Members that have been gathered of those as written: besides one name, they are alike, each of
them is allowed, and none is there twice. -/
structure Gathers (allowed : String × Json → Prop) (besides : Option String)
    (written members : List (String × Json)) : Prop where
  alike (k : String) : besides ≠ some k →
    Option.Rel Json.Alike (get? k written) (get? k members)
  nodup : (members.map Prod.fst).Nodup
  allowed (m : String × Json) : m ∈ members → allowed m ∧ m.2.Distinct

namespace Gathers

variable {allowed : String × Json → Prop} {besides : Option String}
  {written members : List (String × Json)}

theorem nil : Gathers allowed besides [] [] where
  alike _ _ := .none
  nodup := List.nodup_nil
  allowed _ h := by cases h

theorem insert (h : Gathers allowed besides written members) {u v : Json}
    (hv : Json.Alike u v) (hallowed : allowed (k, v)) (hd : v.Distinct) :
    Gathers allowed besides (Assoc.insert k u written) (Assoc.insert k v members) where
  alike l hl := by
    by_cases hk : l = k
    · rw [hk, get?_insert_self, get?_insert_self]
      exact .some hv
    · rw [get?_insert_of_ne hk, get?_insert_of_ne hk]
      exact h.alike l hl
  nodup := nodup_insert h.nodup k v
  allowed m hm := by
    rcases mem_insert hm with hm | rfl
    · exact h.allowed m hm
    · exact ⟨hallowed, hd⟩

theorem insert_besides (h : Gathers allowed besides written members)
    (hk : besides = some k) (u : Json) :
    Gathers allowed besides (Assoc.insert k u written) members where
  alike l hl := by
    have hne : l ≠ k := by
      rintro rfl
      exact hl hk
    rw [get?_insert_of_ne hne]
    exact h.alike l hl
  nodup := h.nodup
  allowed := h.allowed

theorem of_foldlM {σ : Type} (collected : σ → List (String × Json))
    {step : σ → String × Json → Option σ} {so so' : σ}
    (hstep : ∀ so m so' written, step so m = some so' →
      Gathers allowed besides written (collected so) →
        Gathers allowed besides (Assoc.insert m.1 m.2.settled written) (collected so'))
    (h : fields.foldlM step so = some so') (hso : Gathers allowed besides written (collected so)) :
    Gathers allowed besides (writtenBehind written fields) (collected so') := by
  induction fields generalizing so written with
  | nil =>
    cases h
    exact hso
  | cons m rest ih =>
    simp only [List.foldlM_cons, Option.bind_eq_bind, Option.bind_eq_some_iff] at h
    obtain ⟨next, hnext, hrest⟩ := h
    exact ih hrest (hstep so m next written hnext hso)

theorem distinct (h : Gathers allowed besides written members) : (Json.object members).Distinct :=
  ⟨h.nodup, Json.distinctMembers_iff.2 fun m hm => (h.allowed m hm).2⟩

end Gathers

theorem judges_values {accept : Json → Option Json} (h : Judges accept conforms) :
    Judges (fun u => u.object?.bind fun members =>
        (members.foldlM (fun so m => (accept m.2).map fun v => Assoc.insert m.1 v so) []).map .object)
      fun v => ∃ members, v = .object members ∧ ∀ m ∈ members, conforms m.2 where
  sound {u v} hu := by
    obtain ⟨members, hmembers, hv⟩ := Option.bind_eq_some_iff.1 hu
    rw [object?_eq_some] at hmembers
    subst hmembers
    obtain ⟨all, hall, rfl⟩ := Option.map_eq_some_iff.1 hv
    have hgathers : Gathers (fun m => conforms m.2) none (writtenBehind [] members) all := by
      refine Gathers.of_foldlM id (fun so m so' written hstep hso => ?_) hall .nil
      obtain ⟨v, hv, rfl⟩ := Option.map_eq_some_iff.1 hstep
      obtain ⟨halike, hconforms, hd⟩ := h.sound hv
      exact hso.insert halike hconforms hd
    refine ⟨?_, ⟨all, rfl, fun m hm => (hgathers.allowed m hm).1⟩, hgathers.distinct⟩
    rw [settled_object_eq]
    exact alike_object fun k => hgathers.alike k (by simp)
  complete {u} hd hu := by
    obtain ⟨members, rfl, hall⟩ := hu
    have hd := Json.distinctMembers_iff.1 hd.2
    have hfold : ∃ all, members.foldlM
        (fun so m => (accept m.2).map fun v => Assoc.insert m.1 v so) [] = some all ∧ _ :=
      exists_foldlM (fun rest _ => ∀ m ∈ rest, conforms m.2 ∧ m.2.Distinct)
        (fun m rest so hrest => by
          obtain ⟨v, hv⟩ := h.complete (hrest m (by simp)).2 (hrest m (by simp)).1
          exact ⟨_, by rw [hv]; rfl, fun n hn => hrest n (by simp [hn])⟩)
        fun m hm => ⟨hall m hm, hd m hm⟩
    obtain ⟨all, hfold, -⟩ := hfold
    exact ⟨.object all, by simp [Json.object?, hfold]⟩

/-! ### Objects with known members -/

theorem admitMember_cases {known : String → Option (Json → Option Json)}
    {tag : Option String} (h : admitMember known additional tag so m = some so') :
    (∃ read v, known m.1 = some read ∧ read m.2 = some v ∧
      so' = (Assoc.insert m.1 v so.1, so.2)) ∨
    (known m.1 = none ∧ tag = some m.1 ∧ so.2 = false ∧ so' = (so.1, true)) ∨
    (known m.1 = none ∧ tag ≠ some m.1 ∧ additional = true ∧ Shallow m.2 ∧
      so' = (Assoc.insert m.1 m.2.settled so.1, so.2)) := by
  unfold admitMember at h
  split at h
  · rename_i read hread
    obtain ⟨v, hv, rfl⟩ := Option.map_eq_some_iff.1 h
    exact .inl ⟨read, v, hread, hv, rfl⟩
  · rename_i hread
    refine .inr ?_
    by_cases htag : tag = some m.1
    · rw [if_pos htag] at h
      split at h
      · cases h
      · rename_i hseen
        obtain ⟨_, -, rfl⟩ := Option.map_eq_some_iff.1 h
        exact .inl ⟨hread, htag, by simpa using hseen, rfl⟩
    · rw [if_neg htag] at h
      split at h
      · rename_i hadditional
        obtain ⟨v, hv, rfl⟩ := Option.map_eq_some_iff.1 h
        unfold admitPlain at hv
        split at hv
        · rename_i hshallow
          cases hv
          exact .inr ⟨hread, htag, hadditional, hshallow, rfl⟩
        · cases hv
      · cases h

section Objects

open Form (named Fits)

variable {onAdmit : String → Json → Option Json} {onRef : String → Json → Prop}
  {required optional : List (String × Form)} {additional : Bool} {tag : Option String}
  {known : String → Option (Json → Option Json)}

def MembersJudge (onAdmit : String → Json → Option Json) (onRef : String → Json → Prop)
    (required optional : List (String × Form)) : Prop :=
  ∀ k form, named required optional k = some form →
    Judges (form.accept onAdmit) (form.Conforms Shallow onRef)

theorem Gathers.member (hforms : MembersJudge onAdmit onRef required optional)
    (hstep : admitMember (fun key => (named required optional key).map (Form.accept onAdmit))
      additional tag so m = some so')
    (h : Gathers (Fits Shallow onRef required optional additional tag) tag written so.1) :
    Gathers (Fits Shallow onRef required optional additional tag) tag
      (Assoc.insert m.1 m.2.settled written) so'.1 := by
  rcases admitMember_cases hstep with ⟨read, v, hread, hv, rfl⟩ | ⟨_, htag, -, rfl⟩ |
    ⟨hread, _, hadditional, hshallow, rfl⟩
  · obtain ⟨form, hform, rfl⟩ := Option.map_eq_some_iff.1 hread
    obtain ⟨halike, hconforms, hd⟩ := (hforms _ form hform).sound hv
    refine h.insert halike ?_ hd
    rw [Fits, hform]
    exact hconforms
  · exact h.insert_besides htag _
  · refine h.insert (.refl _) ?_ (Json.distinct_settled _)
    rw [Fits, Option.map_eq_none_iff.1 hread]
    exact .inr ⟨hadditional, hshallow.settled⟩

theorem gathers_of_admitMembers (hforms : MembersJudge onAdmit onRef required optional)
    {so : List (String × Json)}
    (h : admitMembers (fun key => (named required optional key).map (Form.accept onAdmit)) additional
      tag (required.map Prod.fst) so members = some v)
    (hso : Gathers (Fits Shallow onRef required optional additional tag) tag [] so) :
    ∃ all, members.foldlM (admitMember
        (fun key => (named required optional key).map (Form.accept onAdmit)) additional tag)
        (so, false) = some all ∧ v = .object all.1 ∧
      Gathers (Fits Shallow onRef required optional additional tag) tag (writtenBehind [] members)
        all.1 ∧ ∀ name ∈ required.map Prod.fst, Assoc.contains name all.1 = true := by
  obtain ⟨all, hall, hv⟩ := Option.bind_eq_some_iff.1 h
  split at hv
  · rename_i hrequired
    cases hv
    refine ⟨all, hall, rfl, ?_, List.all_eq_true.1 hrequired⟩
    exact Gathers.of_foldlM Prod.fst (fun _ _ _ _ hstep hso => hso.member hforms hstep) hall hso
  · cases hv

/-- How far the members of an object have been taken: `rest` is left, without names that come again,
a tag that has been taken does not come again, and required members have been taken or come. -/
structure Pending (required : List (String × Form)) (tag : Option String)
    (members rest : List (String × Json)) (so : List (String × Json) × Bool) : Prop where
  nodup : (rest.map Prod.fst).Nodup
  mem (m : String × Json) : m ∈ rest → m ∈ members
  unseen (t : String) : so.2 = true → tag = some t → t ∉ rest.map Prod.fst
  taken (name : String) : name ∈ required.map Prod.fst →
    Assoc.contains name so.1 = true ∨ name ∈ rest.map Prod.fst

namespace Pending

variable {members rest : List (String × Json)} {so : List (String × Json) × Bool} {m : String × Json}

theorem insert (h : Pending required tag members (m :: rest) so) (v : Json) :
    Pending required tag members rest (Assoc.insert m.1 v so.1, so.2) where
  nodup := (List.nodup_cons.1 h.nodup).2
  mem n hn := h.mem n (by simp [hn])
  unseen t hseen ht hin := h.unseen t hseen ht (List.mem_cons_of_mem _ hin)
  taken name hname := by
    by_cases hne : name = m.1
    · exact .inl (by simp [Assoc.contains, hne, get?_insert_self])
    · rcases h.taken name hname with hso | hrest
      · exact .inl (by simpa [Assoc.contains, get?_insert_of_ne hne] using hso)
      · exact .inr (by simpa [hne] using hrest)

theorem tagged (h : Pending required tag members (m :: rest) so) (htag : tag = some m.1)
    (hrequired : m.1 ∉ required.map Prod.fst) :
    Pending required tag members rest (so.1, true) where
  nodup := (List.nodup_cons.1 h.nodup).2
  mem n hn := h.mem n (by simp [hn])
  unseen t _ ht := by
    rw [htag, Option.some_inj] at ht
    exact ht ▸ (List.nodup_cons.1 h.nodup).1
  taken name hname := by
    have hne : name ≠ m.1 := fun heq => hrequired (heq ▸ hname)
    rcases h.taken name hname with hso | hrest
    · exact .inl hso
    · exact .inr (by simpa [hne] using hrest)

end Pending

section

variable (hforms : MembersJudge onAdmit onRef required optional)

include hforms

theorem exists_admitMember
    {rest : List (String × Json)} (h : Pending required tag members (m :: rest) so)
    (hd : m.2.Distinct) (hfit : Fits Shallow onRef required optional additional tag m)
    (htag : tag = some m.1 → ∃ value, m.2 = .string value) :
    ∃ so', admitMember (fun key => (named required optional key).map (Form.accept onAdmit)) additional
      tag so m = some so' ∧ Pending required tag members rest so' := by
  unfold Fits at hfit
  cases hnamed : named required optional m.1 with
  | some form =>
    rw [hnamed] at hfit
    obtain ⟨v, hv⟩ := (hforms m.1 form hnamed).complete hd hfit
    exact ⟨_, by simp [admitMember, hnamed, hv], h.insert v⟩
  | none =>
    rw [hnamed] at hfit
    by_cases ht : tag = some m.1
    · have hfirst : so.2 = false := by
        by_contra hs
        exact h.unseen m.1 (by simpa using hs) ht (by simp)
      obtain ⟨value, hvalue⟩ := htag ht
      refine ⟨(so.1, true), by simp [admitMember, hnamed, ht, hfirst, hvalue, Json.string?],
        h.tagged ht ?_⟩
      exact get?_eq_none_iff.1 (Option.or_eq_none_iff.1 hnamed).1
    · obtain ⟨hadditional, hshallow⟩ := hfit.resolve_left ht
      exact ⟨_, by simp [admitMember, hnamed, ht, hadditional, admitPlain, hshallow],
        h.insert m.2.settled⟩

theorem exists_admitMembers (hd : (Json.object members).Distinct)
    (hrequired : ∀ name ∈ required.map Prod.fst, Assoc.contains name members = true)
    (hfits : ∀ m ∈ members, Fits Shallow onRef required optional additional tag m)
    (htag : ∀ m ∈ members, tag = some m.1 → ∃ value, m.2 = .string value)
    (so : List (String × Json)) :
    ∃ v, admitMembers (fun key => (named required optional key).map (Form.accept onAdmit)) additional
      tag (required.map Prod.fst) so members = some v := by
  have hstart : Pending required tag members members (so, false) := by
    refine ⟨hd.1, fun _ hm => hm, fun _ h => by simp at h, fun name hname => .inr ?_⟩
    obtain ⟨v, hv⟩ := Option.isSome_iff_exists.1 (hrequired name hname)
    exact mem_keys_of_get?_eq_some hv
  obtain ⟨all, hall, hend⟩ := exists_foldlM _ (fun m rest so h => by
    have hm := h.mem m (by simp)
    exact exists_admitMember hforms h (Json.distinctMembers_iff.1 hd.2 m hm) (hfits m hm)
      (htag m hm)) hstart
  have hpresent : (required.map Prod.fst).all fun name => Assoc.contains name all.1 :=
    List.all_eq_true.2 fun name hname => (hend.taken name hname).resolve_right (by simp)
  exact ⟨.object all.1, by rw [admitMembers, hall, Option.bind_some, if_pos hpresent]⟩

theorem judges_properties (hnames : (required.map Prod.fst ++ optional.map Prod.fst).Nodup) :
    Judges ((Form.properties required optional additional).accept onAdmit)
      ((Form.properties required optional additional).Conforms Shallow onRef) where
  sound {u v} h := by
    simp only [Form.accept, Form.admitKnown_or] at h
    obtain ⟨members, hmembers, h⟩ := Option.bind_eq_some_iff.1 h
    rw [object?_eq_some] at hmembers
    subst hmembers
    obtain ⟨all, -, rfl, hgathers, hrequired⟩ := gathers_of_admitMembers hforms h .nil
    refine ⟨?_, ?_, hgathers.distinct⟩
    · rw [settled_object_eq]
      exact alike_object fun k => hgathers.alike k (by simp)
    · exact ⟨all.1, rfl, (Form.object_iff hnames hgathers.nodup).2
        ⟨hrequired, fun m hm => (hgathers.allowed m hm).1⟩⟩
  complete {u} hd h := by
    obtain ⟨members, rfl, hconforms⟩ := h
    obtain ⟨hrequired, hfits⟩ := (Form.object_iff hnames hd.1).1 hconforms
    simp only [Form.accept, Form.admitKnown_or]
    exact exists_admitMembers hforms hd hrequired hfits (by simp) []

end

/-! ### Objects with a tag -/

/-- The tag of an object whose members are being taken: its value stands in front of what has been
gathered, and it is still to come or has been read. -/
structure Tagged (tag value : String) (written rest : List (String × Json))
    (so : List (String × Json) × Bool) : Prop where
  first : ∃ more, so.1 = (tag, .string value) :: more
  unseen : so.2 = false → admitTag tag rest = some value
  seen : so.2 = true → get? tag written = some (.string value)

namespace Tagged

variable {name value : String} {written rest : List (String × Json)}
  {so so' : List (String × Json) × Bool} {m : String × Json}

theorem insert (h : Tagged name value written (m :: rest) so) (hm : m.1 ≠ name) (v : Json) :
    Tagged name value (Assoc.insert m.1 m.2.settled written) rest
      (Assoc.insert m.1 v so.1, so.2) where
  first := by
    obtain ⟨more, hmore⟩ := h.first
    exact ⟨Assoc.insert m.1 v more, by simp [hmore, Assoc.insert, Ne.symm hm]⟩
  unseen hseen := by
    have hrest := h.unseen hseen
    simp only [admitTag, if_neg hm] at hrest
    split at hrest
    · exact hrest
    · cases hrest
  seen hseen := by
    rw [get?_insert_of_ne (Ne.symm hm)]
    exact h.seen hseen

theorem member (hknown : known name = none)
    (hstep : admitMember known additional (some name) so m = some so')
    (h : Tagged name value written (m :: rest) so) :
    Tagged name value (Assoc.insert m.1 m.2.settled written) rest so' := by
  rcases admitMember_cases hstep with ⟨read, v, hread, hv, rfl⟩ | ⟨-, htag, hfirst, rfl⟩ |
    ⟨-, htag, -, -, rfl⟩
  · refine h.insert (fun heq => ?_) v
    rw [heq, hknown] at hread
    cases hread
  · have hvalue := h.unseen hfirst
    rw [Option.some_inj] at htag
    simp only [admitTag, ← htag] at hvalue
    refine ⟨h.first, by simp, fun _ => ?_⟩
    rw [← htag, string?_eq_some.1 hvalue, get?_insert_self]
    rfl
  · exact h.insert (fun heq => htag (heq ▸ rfl)) _

theorem of_foldlM (hknown : known name = none)
    (hfold : fields.foldlM (admitMember known additional (some name)) so = some so')
    (h : Tagged name value written fields so) :
    Tagged name value (writtenBehind written fields) [] so' := by
  induction fields generalizing so written with
  | nil =>
    cases hfold
    exact h
  | cons m rest ih =>
    simp only [List.foldlM_cons, Option.bind_eq_bind, Option.bind_eq_some_iff] at hfold
    obtain ⟨next, hnext, hrest⟩ := hfold
    exact ih hrest (h.member hknown hnext)

end Tagged

theorem admitTag_eq_some (hget : get? name members = some (.string value))
    (hshallow : ∀ m ∈ members.takeWhile (·.1 != name), Shallow m.2) :
    admitTag name members = some value := by
  induction members with
  | nil => cases hget
  | cons m rest ih =>
    obtain ⟨k, v⟩ := m
    by_cases hk : k = name
    · simp only [get?_cons, hk, beq_self_eq_true, if_true, Option.some_inj] at hget
      simp [admitTag, hk, hget, Json.string?]
    · rw [get?_cons, if_neg (by simpa using Ne.symm hk)] at hget
      have htake : ((k, v) :: rest).takeWhile (·.1 != name) =
          (k, v) :: rest.takeWhile _ := List.takeWhile_cons_of_pos (by simpa using hk)
      rw [htake] at hshallow
      have hv : Shallow v := hshallow (k, v) (by simp)
      rw [admitTag, if_neg hk, if_pos hv]
      exact ih hget fun m hm => hshallow m (by simp [hm])

theorem selected_of_admitMembers (hforms : MembersJudge onAdmit onRef required optional)
    (hnames : (required.map Prod.fst ++ optional.map Prod.fst).Nodup)
    (hname : named required optional name = none) (htag : admitTag name members = some value)
    (h : admitMembers (fun key => (named required optional key).map (Form.accept onAdmit)) additional
      (some name) (required.map Prod.fst) [(name, .string value)] members = some v) :
    Json.Alike (Json.object members).settled v ∧ v.Distinct ∧
      ∃ more, v = .object ((name, .string value) :: more) ∧
        Form.SelectedConforms Shallow onRef name ((name, .string value) :: more)
          (.properties required optional additional) := by
  have hstart : Gathers (Fits Shallow onRef required optional additional (some name)) (some name) []
      [(name, .string value)] := by
    refine ⟨fun k hk => ?_, by simp, fun m hm => ?_⟩
    · rw [get?_cons, if_neg (by simpa using fun h => hk (congrArg some h.symm))]
      exact .none
    · rw [List.mem_singleton.1 hm, Fits, hname]
      exact ⟨.inl rfl, trivial⟩
  obtain ⟨all, hall, rfl, hgathers, hrequired⟩ := gathers_of_admitMembers hforms h hstart
  obtain ⟨⟨more, hmore⟩, hunseen, hseen⟩ := Tagged.of_foldlM (by simp [hname]) hall
    ⟨⟨[], rfl⟩, fun _ => htag, by simp⟩
  have hread : all.2 = true := by
    by_contra hfalse
    simpa [admitTag] using hunseen (by simpa using hfalse)
  refine ⟨?_, hgathers.distinct, more, by rw [hmore], ?_⟩
  · rw [settled_object_eq]
    refine alike_object fun k => ?_
    by_cases hk : k = name
    · rw [hk, hseen hread, hmore]
      simp only [get?, List.lookup_cons, beq_self_eq_true]
      exact .some (.refl _)
    · exact hgathers.alike k (by simpa using Ne.symm hk)
  · rw [← hmore]
    exact (Form.object_iff hnames hgathers.nodup).2
      ⟨hrequired, fun m hm => (hgathers.allowed m hm).1⟩

end Objects

namespace Form

variable {onAdmit : String → Json → Option Json} {onRef : String → Json → Prop} {tag : String}
  {mapping required optional : List (String × Form)}

theorem admitMapped_eq (tag value : String) (members : List (String × Json))
    (mapping : List (String × Form)) :
    admitMapped onAdmit tag value members mapping =
      (get? value mapping).bind (admitSelected onAdmit tag value members) := by
  induction mapping with
  | nil => rfl
  | cons m rest ih =>
    obtain ⟨name, form⟩ := m
    by_cases hk : value = name <;> simp [admitMapped, get?_cons, hk, ih]

theorem mappedConforms_iff {plain : Json → Prop} :
    MappedConforms plain onRef tag members value mapping ↔
      ∃ form, (value, form) ∈ mapping ∧ SelectedConforms plain onRef tag members form := by
  induction mapping with
  | nil => simp [MappedConforms]
  | cons m rest ih =>
    obtain ⟨name, form⟩ := m
    simp only [MappedConforms, ih, List.mem_cons, Prod.mk.injEq]
    constructor
    · rintro (⟨rfl, h⟩ | ⟨f, hf, h⟩)
      · exact ⟨form, .inl ⟨rfl, rfl⟩, h⟩
      · exact ⟨f, .inr hf, h⟩
    · rintro ⟨f, ⟨rfl, rfl⟩ | hf, h⟩
      · exact .inl ⟨rfl, h⟩
      · exact .inr ⟨f, hf, h⟩

def SelectedJudges (onAdmit : String → Json → Option Json) (onRef : String → Json → Prop) :
    Form → Prop
  | properties required optional _ =>
    MembersJudge onAdmit onRef required optional ∧
      (required.map Prod.fst ++ optional.map Prod.fst).Nodup
  | _ => True

theorem named_eq_none (h : LeavesOut tag (.properties required optional additional)) :
    named required optional tag = none := by
  rw [named, get?_eq_none_iff.2 h.1, get?_eq_none_iff.2 h.2]
  rfl

theorem judges_discriminator (hnames : (mapping.map Prod.fst).Nodup)
    (htag : ∀ m ∈ mapping, m.2.LeavesOut tag)
    (hforms : ∀ m ∈ mapping, SelectedJudges onAdmit onRef m.2) :
    Judges ((discriminator tag mapping).accept onAdmit)
      ((discriminator tag mapping).Conforms Shallow onRef) where
  sound {u v} h := by
    simp only [accept, admitMapped_eq, Option.bind_eq_some_iff] at h
    obtain ⟨members, hmembers, value, hvalue, form, hform, h⟩ := h
    rw [object?_eq_some] at hmembers
    subst hmembers
    have hmem := mem_of_get?_eq_some hform
    have hleaves := htag _ hmem
    cases form with
    | properties required optional additional =>
      obtain ⟨hparts, hparted⟩ := hforms _ hmem
      simp only [admitSelected, admitKnown_or] at h
      obtain ⟨halike, hd, more, rfl, hselected⟩ :=
        selected_of_admitMembers hparts hparted (named_eq_none hleaves) hvalue h
      refine ⟨halike, ?_, hd⟩
      refine ⟨_, value, rfl, by simp [get?], by simp [List.takeWhile], ?_⟩
      exact mappedConforms_iff.2 ⟨_, hmem, hselected⟩
    | _ => exact hleaves.elim
  complete {u} hd h := by
    obtain ⟨members, value, rfl, hget, hshallow, hmapped⟩ := h
    obtain ⟨form, hmem, hselected⟩ := mappedConforms_iff.1 hmapped
    cases form with
    | properties required optional additional =>
      obtain ⟨hparts, hparted⟩ := hforms _ hmem
      obtain ⟨hrequired, hfits⟩ := (object_iff hparted hd.1).1 hselected
      have hstring : ∀ m ∈ members, some tag = some m.1 → ∃ value, m.2 = .string value := by
        intro m hm heq
        rw [Option.some_inj] at heq
        have hm' := (get?_eq_some_iff hd.1).2 hm
        rw [← heq, hget, Option.some_inj] at hm'
        exact ⟨value, hm'.symm⟩
      simp only [accept, admitMapped_eq, Json.object?, Option.bind_some, admitTag_eq_some hget hshallow,
        (get?_eq_some_iff hnames).2 hmem, admitSelected, admitKnown_or]
      exact exists_admitMembers hparts hd hrequired hfits hstring _
    | _ => exact (htag _ hmem).elim

theorem judges_nullable {form : Form}
    (h : Judges (form.accept onAdmit) (form.Conforms Shallow onRef)) :
    Judges ((nullable form).accept onAdmit) ((nullable form).Conforms Shallow onRef) where
  sound {u v} hu := by
    rw [accept] at hu
    split at hu
    · rename_i hnull
      cases hu
      exact ⟨by rw [hnull]; exact .refl _, .inl rfl, trivial⟩
    · obtain ⟨halike, hconforms, hd⟩ := h.sound hu
      exact ⟨halike, .inr hconforms, hd⟩
  complete {u} hd hu := by
    rw [accept]
    by_cases hnull : u = .null
    · exact ⟨.null, if_pos hnull⟩
    · rw [if_neg hnull]
      exact h.complete hd (hu.resolve_left hnull)

theorem judges {known : String → Prop}
    (hrefs : ∀ name, known name → Judges (onAdmit name) (onRef name)) (form : Form)
    (h : form.WellFormed known) : Judges (form.accept onAdmit) (form.Conforms Shallow onRef) ∧
      SelectedJudges onAdmit onRef form := by
  induction form using induction_members with
  | properties required optional additional ihr iho =>
    simp only [WellFormed, allWellFormed_iff] at h
    have hforms : MembersJudge onAdmit onRef required optional := by
      intro k form hform
      rcases mem_of_named hform with hmem | hmem
      · exact (ihr _ hmem (h.2.1 _ hmem)).1
      · exact (iho _ hmem (h.2.2 _ hmem)).1
    exact ⟨judges_properties hforms h.1, hforms, h.1⟩
  | _ => ?_
  all_goals refine ⟨?_, trivial⟩
  case discriminator tag mapping ih =>
    simp only [WellFormed, allWellFormed_iff] at h
    exact judges_discriminator h.1 h.2.1 fun m hm => (ih m hm (h.2.2 m hm)).2
  case nullable form ih => exact judges_nullable (ih h).1
  case empty => exact judges_plain
  case ref name => exact hrefs name h
  case type t => exact judges_type t
  case enum texts => exact judges_enum texts
  case elements item ih => exact judges_elements (ih h).1
  case values item ih => exact judges_values (ih h).1

end Form

end SchemaCompiler.TypeDefinition
