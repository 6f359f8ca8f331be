import SchemaCompiler.Decode.Record
import SchemaCompiler.Proofs.Assoc
import SchemaCompiler.Proofs.Run

/-!
# What decoders give

A decoder for values of a type may promise more of what it gives than the type says. A promise goes
from parts to containers; the parts of a record are each made by the decoder of their field, or are
what the field takes without one.
-/
namespace SchemaCompiler.Decode

variable {source : Source} {draft : Json.Draft} {expected : String} {α : Type} {a : α}
  {drafts : List (String × Json.Draft)} {αs : List Type} {fields : Fields αs} {unknown : Unknown}

def Promises {α : Type} (decode : Decoder α) (p : α → Prop) : Prop :=
  ∀ source draft a, decode source draft = .ok a → p a

theorem under_eq_ok {segment : Segment} {x : Except Failure α} :
    under segment x = .ok a ↔ x = .ok a := by
  cases x <;> simp [under]

theorem mismatch_ne_ok : mismatch expected draft ≠ .ok a := by
  cases draft <;> simp [mismatch, fail]

section Containers

variable {α : Type} {decode : Decoder α} {p : α → Prop}

theorem promises_option (h : Promises decode p) :
    Promises (option decode) fun found => ∀ a, found = some a → p a := by
  intro source draft found hfound
  unfold option at hfound
  split at hfound
  · cases hfound
    simp
  · obtain ⟨a, ha, rfl⟩ := map_eq_ok.1 hfound
    intro b hb
    cases hb
    exact h source _ a ha

theorem promises_membersFrom (h : Promises decode p) {members : List (String × α)}
    (hmembers : membersFrom decode source drafts = .ok members) : ∀ m ∈ members, p m.2 := by
  induction drafts generalizing members with
  | nil =>
    cases hmembers
    simp
  | cons d drafts ih =>
    obtain ⟨k, d⟩ := d
    simp only [membersFrom, bind_eq_ok, under_eq_ok] at hmembers
    obtain ⟨a, ha, rest, hrest, heq⟩ := hmembers
    cases heq
    intro m hm
    rcases List.mem_cons.1 hm with rfl | hm
    · exact h source d a ha
    · exact ih hrest m hm

theorem promises_map (h : Promises decode p) :
    Promises (map decode) fun members => (members.map Prod.fst).Nodup ∧ ∀ m ∈ members, p m.2 := by
  intro source draft members hmembers
  unfold map at hmembers
  split at hmembers
  · simp only [bind_eq_ok] at hmembers
    obtain ⟨entries, hentries, _, _, heq⟩ := hmembers
    cases heq
    exact ⟨Assoc.nodup_ofList entries, fun m hm =>
      promises_membersFrom h hentries m (Assoc.mem_of_mem_ofList hm)⟩
  · exact absurd hmembers mismatch_ne_ok

end Containers

/-! ## Records -/

def Field.Makes {α : Type} (field : Field α) (a : α) : Prop :=
  (∃ source draft, field.decode source draft = .ok a) ∨ field.absent = some a ∨
    field.omitted = some a

theorem Field.Makes.optional {key : String} {decode : Decoder α} {p : α → Prop}
    (h : Promises decode p) {found : Option α} (hfound : (optional key decode).Makes found) :
    ∀ a, found = some a → p a := by
  rcases hfound with ⟨source, draft, hdecode⟩ | habsent | homitted
  · exact promises_option h source draft found hdecode
  · cases habsent
    simp
  · cases homitted

namespace Fields

def Made : {αs : List Type} → Fields αs → Product αs → Prop
  | _, .nil, _ => True
  | _, .cons field rest, (a, as) => field.Makes a ∧ rest.Made as

def Held : {αs : List Type} → Fields αs → Partial αs → Prop
  | _, .nil, _ => True
  | _, .cons field rest, (a, as) => (∀ b, a = some b → field.Makes b) ∧ rest.Held as

theorem held_start : {αs : List Type} → (fields : Fields αs) → fields.Held fields.start
  | _, .nil => trivial
  | _, .cons _ rest => ⟨by simp, held_start rest⟩

theorem held_take {key : String} : {αs : List Type} →
    (fields : Fields αs) → {held held' : Partial αs} → fields.Held held →
      fields.take source key draft held = .ok (some held') → fields.Held held'
  | _, .nil, _, _, _, h => by cases h
  | _, .cons field rest, (a, as), held', hheld, h => by
    cases hkey : field.key == key with
    | true =>
      cases a with
      | some _ => simp [take, hkey, fail] at h
      | none =>
        simp only [take, hkey, if_true, bind_eq_ok, under_eq_ok] at h
        obtain ⟨value, hvalue, heq⟩ := h
        cases heq
        exact ⟨fun b hb => by cases hb; exact .inl ⟨source, draft, hvalue⟩, hheld.2⟩
    | false =>
      simp only [take, hkey, Bool.false_eq_true, if_false, bind_eq_ok] at h
      obtain ⟨taken, htaken, heq⟩ := h
      cases taken with
      | none => cases heq
      | some others =>
        cases heq
        exact ⟨hheld.1, held_take rest hheld.2 htaken⟩

theorem held_collect {held held' : Partial αs} (hheld : fields.Held held)
    (h : collect fields unknown source drafts held = .ok held') : fields.Held held' := by
  induction drafts generalizing held with
  | nil =>
    cases h
    exact hheld
  | cons d drafts ih =>
    rw [collect, bind_eq_ok] at h
    obtain ⟨taken, htaken, h⟩ := h
    cases taken with
    | some next => exact ih (held_take fields hheld htaken) h
    | none =>
      obtain ⟨_, -, h⟩ := bind_eq_ok.1 h
      exact ih hheld h

theorem made_complete : {αs : List Type} → (fields : Fields αs) → {held : Partial αs} →
    {values : Product αs} → fields.Held held → fields.complete held = .ok values →
      fields.Made values
  | _, .nil, _, _, _, _ => trivial
  | _, .cons field rest, (a, as), values, hheld, h => by
    rw [complete] at h
    split at h
    · cases h
    · rename_i value hvalue
      obtain ⟨others, hothers, heq⟩ := bind_eq_ok.1 h
      cases heq
      refine ⟨?_, made_complete rest hheld.2 hothers⟩
      rcases Option.or_eq_some_iff.1 hvalue with ha | ⟨-, habsent⟩
      · exact hheld.1 value ha
      · exact .inr (.inl habsent)

theorem made_ofItems {stop : Option Json.Fault} :
    {αs : List Type} → (fields : Fields αs) → {i : Nat} → {items left : List Json.Draft} →
      {values : Product αs} → fields.ofItems source expected i items stop = .ok (values, left) →
        fields.Made values
  | _, .nil, _, _, _, _, _ => trivial
  | _, .cons field rest, i, items, left, values, h => by
    rw [ofItems.eq_def] at h
    dsimp only at h
    split at h
    · simp only [bind_eq_ok, under_eq_ok] at h
      obtain ⟨value, hvalue, ⟨others, _⟩, hothers, heq⟩ := h
      cases heq
      exact ⟨.inl ⟨source, _, hvalue⟩, made_ofItems rest hothers⟩
    · split at h
      · cases h
      · cases h
      · rename_i value homitted
        obtain ⟨⟨others, _⟩, hothers, heq⟩ := bind_eq_ok.1 h
        cases heq
        exact ⟨.inr (.inr homitted), made_ofItems rest hothers⟩

end Fields

theorem made_record {values : Product αs}
    (h : record expected unknown fields source draft = .ok values) : fields.Made values := by
  unfold record at h
  split at h
  · simp only [bind_eq_ok] at h
    obtain ⟨held, hheld, _, -, hcomplete⟩ := h
    exact fields.made_complete (Fields.held_collect fields.held_start hheld) hcomplete
  · simp only [Fields.ofArray, bind_eq_ok] at h
    obtain ⟨⟨made, left⟩, hmade, _, -, heq⟩ := h
    cases heq
    exact fields.made_ofItems hmade
  · exact absurd h mismatch_ne_ok

end SchemaCompiler.Decode
