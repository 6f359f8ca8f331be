import Mathlib.Data.List.Forall2
import SchemaCompiler.Decode.Variant
import SchemaCompiler.Proofs.Json.Values

/-!
# What decoders make of finished values

A decoder that is given the draft of a value meets no fault of a text. `Reads decode v a` says that
it makes `a` of the value `v`; there is one rule for each way in which decoders are put together.
-/
namespace SchemaCompiler.Decode
open Json (Draft)

variable {α β : Type} {decode : Decoder α} {αs : List Type} {a : α} {fields : Fields αs}
  {tag : String} {vs : List Json} {v : Json} {b : β} {as : List α} {p : Product αs}
  {ms : List (String × Json)} {variants : List (Variant α)} {make : Product αs → β}

def Reads {α : Type} (decode : Decoder α) (v : Json) (a : α) : Prop :=
  decode .text (Draft.ofJson v) = .ok a

@[simp] theorem ok_bind (a : α) (f : α → Except Failure β) : (Except.ok a >>= f) = f a := rfl

@[simp] theorem map_ok (f : α → β) (a : α) :
    (f <$> (Except.ok a : Except Failure α)) = .ok (f a) := rfl

@[simp] theorem under_ok (segment : Segment) (a : α) : under segment (.ok a) = .ok a := rfl

/-! ## Scalars -/

theorem reads_bool (b : Bool) : Reads bool (.bool b) b := rfl

theorem reads_string (s : String) : Reads string (.string s) s := rfl

theorem reads_nat (n : Nat) : Reads nat (Json.ofNat n) n := by
  simp [Reads, Json.ofNat, Draft.ofJson, nat]

mutual
theorem faultOf_ofJson : (v : Json) → faultOf (Draft.ofJson v) = none
  | .null | .bool _ | .number _ | .string _ => rfl
  | .array items => by simp [Draft.ofJson, faultOf, faultOfItems_ofItems 0 items]
  | .object members => by simp [Draft.ofJson, faultOf, faultOfMembers_ofMembers members]

theorem faultOfItems_ofItems :
    (i : Nat) → (items : List Json) → faultOfItems i (Draft.ofItems items) = none
  | _, [] => rfl
  | i, v :: vs => by
    simp [Draft.ofItems, faultOfItems, faultOf_ofJson v, faultOfItems_ofItems (i + 1) vs]

theorem faultOfMembers_ofMembers :
    (members : List (String × Json)) → faultOfMembers (Draft.ofMembers members) = none
  | [] => rfl
  | (k, v) :: vs => by
    simp [Draft.ofMembers, faultOfMembers, faultOf_ofJson v, faultOfMembers_ofMembers vs]
end

theorem reads_json (h : v.Distinct) : Reads json v v := by
  have hsettled : (Draft.ofJson v).toJson = v := Json.settled_of_distinct h
  simp [Reads, json, faultOf_ofJson, hsettled]

theorem reads_option_null (decode : Decoder α) : Reads (option decode) .null none := rfl

theorem reads_option (hv : v ≠ .null)
    (h : Reads decode v a) : Reads (option decode) v (some a) := by
  unfold Reads at h ⊢
  cases v with
  | null => exact absurd rfl hv
  | _ => simp_all [Draft.ofJson, option, Except.map]

/-! ## Arrays -/

theorem itemsFrom_ofItems (h : List.Forall₂ (Reads decode) vs as) (i : Nat) :
    itemsFrom decode .text i (Draft.ofItems vs) = .ok as := by
  induction h generalizing i with
  | nil => rfl
  | cons hv _ ih =>
    unfold Reads at hv
    simp [Draft.ofItems, itemsFrom, hv, ih]

theorem reads_list
    (h : List.Forall₂ (Reads decode) vs as) : Reads (list decode) (.array vs) as := by
  simp [Reads, Draft.ofJson, list, itemsFrom_ofItems h, unbroken]

def ReadsItems : {αs : List Type} → Fields αs → List Json → Product αs → Prop
  | _, .nil, vs, _ => vs = []
  | _, .cons field rest, vs, (a, as) =>
    ∃ v vs', vs = v :: vs' ∧ Reads field.decode v a ∧ ReadsItems rest vs' as

theorem ofItems_of_readsItems : {αs : List Type} → {fields : Fields αs} → {vs : List Json} →
    {p : Product αs} → ReadsItems fields vs p → (expected : String) → (i : Nat) →
    fields.ofItems .text expected i (Draft.ofItems vs) none = .ok (p, [])
  | _, .nil, vs, p, h, expected, i => by
    cases h
    rfl
  | _, .cons field rest, vs, (a, as), h, expected, i => by
    obtain ⟨v, vs', rfl, hv, hrest⟩ := h
    have ih := ofItems_of_readsItems hrest expected (i + 1)
    unfold Reads at hv
    simp [Draft.ofItems, Fields.ofItems, hv, ih]

theorem reads_tuple (h : ReadsItems fields vs p) (expected counted : String) :
    Reads (tuple expected counted fields) (.array vs) p := by
  simp only [Reads, Draft.ofJson, tuple, Fields.ofArray, ofItems_of_readsItems h]
  rfl

theorem reads_pair {first : Decoder α} {second : Decoder β} {v w : Json} (hv : Reads first v a) (hw : Reads second w b) :
    Reads (pair first second) (.array [v, w]) (a, b) := by
  have hitems : ReadsItems (.cons (required "" first) (.cons (required "" second) .nil)) [v, w]
      (a, b, ()) := ⟨v, [w], rfl, hv, w, [], rfl, hw, rfl⟩
  have h := reads_tuple hitems "a tuple of size 2" "a tuple of size 2"
  unfold Reads at h ⊢
  rw [pair, h]
  rfl

/-! ## Records -/

@[simp] theorem keys_nil : Fields.nil.keys = [] := rfl

@[simp] theorem keys_cons (field : Field α) (rest : Fields αs) :
    (Fields.cons field rest).keys = field.key :: rest.keys := rfl

variable (key : String)

@[simp] theorem required_key (decode : Decoder α) :
    (required key decode).key = key := rfl

@[simp] theorem optional_key (decode : Decoder α) :
    (optional key decode).key = key := rfl

@[simp] theorem defaulted_key (decode : Decoder α) (value : α) :
    (defaulted key decode value).key = key := rfl

/-- Each field makes its part of the member of its name, and the members come in the order of the
fields. -/
def ReadsMembers : {αs : List Type} → Fields αs → List (String × Json) → Product αs → Prop
  | _, .nil, ms, _ => ms = []
  | _, .cons field rest, ms, (a, as) =>
    ∃ v ms', ms = (field.key, v) :: ms' ∧ Reads field.decode v a ∧ ReadsMembers rest ms' as

theorem ReadsMembers.keys_eq : {αs : List Type} → {fields : Fields αs} →
    {ms : List (String × Json)} → {p : Product αs} → ReadsMembers fields ms p →
    ms.map Prod.fst = fields.keys
  | _, .nil, _, _, h => by cases h; rfl
  | _, .cons field rest, _, (_, _), h => by
    obtain ⟨v, ms', rfl, -, hrest⟩ := h
    simp [hrest.keys_eq]

/-- A field that none of the members names stays as it is while the others are taken in. -/
theorem collect_cons (field : Field α) {rest : Fields αs}
    {ms : List (String × Draft)} {held held' : Partial αs} (a : Option α)
    (hkey : field.key ∉ ms.map Prod.fst) (h : collect rest .ignored .text ms held = .ok held') :
    collect (.cons field rest) .ignored .text ms (a, held) = .ok (a, held') := by
  induction ms generalizing held with
  | nil => cases h; rfl
  | cons m ms ih =>
    obtain ⟨key, draft⟩ := m
    simp only [List.map_cons, List.mem_cons, not_or] at hkey
    have hne : (field.key == key) = false := by simpa using hkey.1
    simp only [collect, Fields.take, hne] at h ⊢
    cases ht : rest.take .text key draft held with
    | error failure => rw [ht] at h; cases h
    | ok taken =>
      rw [ht] at h
      cases taken with
      | some next => exact ih hkey.2 h
      | none =>
        -- the keys of the fields only matter where a stray member is refused
        change (stray .ignored rest.keys key draft >>= fun _ => _) = _
        cases hs : stray .ignored rest.keys key draft with
        | error failure => rw [hs] at h; cases h
        | ok done =>
          rw [hs] at h
          exact ih hkey.2 h

theorem collect_of_readsMembers : {αs : List Type} → {fields : Fields αs} →
    {ms : List (String × Json)} → {p : Product αs} → ReadsMembers fields ms p →
    fields.keys.Nodup →
    ∃ held, collect fields .ignored .text (Draft.ofMembers ms) fields.start = .ok held ∧
      fields.complete held = .ok p
  | _, .nil, _, _, h, _ => by
    cases h
    exact ⟨(), rfl, rfl⟩
  | _, .cons field rest, _, (a, as), h, hkeys => by
    obtain ⟨v, ms, rfl, hv, hrest⟩ := h
    obtain ⟨hkey, hnodup⟩ := List.nodup_cons.mp hkeys
    obtain ⟨held, hcollect, hcomplete⟩ := collect_of_readsMembers hrest hnodup
    have hnot : field.key ∉ (Draft.ofMembers ms).map Prod.fst := by
      simpa [Json.Draft.ofMembers_eq_map, ← hrest.keys_eq] using hkey
    refine ⟨(some a, held), ?_, ?_⟩
    · unfold Reads at hv
      have := collect_cons field (some a) hnot hcollect
      simp [Draft.ofMembers, collect, Fields.take, Fields.start, hv, this]
    · simp only [Fields.complete, hcomplete]
      rfl

theorem reads_record (h : ReadsMembers fields ms p) (hkeys : fields.keys.Nodup)
    (expected : String) : Reads (record expected .ignored fields) (.object ms) p := by
  obtain ⟨held, hcollect, hcomplete⟩ := collect_of_readsMembers h hkeys
  simp [Reads, Draft.ofJson, record, hcollect, unbroken, hcomplete]

theorem reads_made {make : α → Except Failure β} (h : Reads decode v a) (hmake : make a = .ok b) :
    Reads (fun source draft => decode source draft >>= make) v b := by
  unfold Reads at h ⊢
  dsimp only
  rw [h, ok_bind, hmake]

theorem reads_map (make : α → β)
    (h : Reads decode v a) : Reads (fun source draft => (decode source draft).map make) v (make a) := by
  unfold Reads at h ⊢
  simp [h, Except.map]

/-! ## Variants -/

theorem lacksColon_ofJson (v : Json) : lacksColon (Draft.ofJson v) = false := by
  cases v <;> rfl

theorem reads_tagged {variant : Variant α}
    {content : Json} (hpick : variants.find? (fun v => v.tag == tag) = some variant)
    (h : Reads variant.decode content a) :
    Reads (choice variants) (.object [(tag, content)]) a := by
  unfold Reads at h
  simp [Reads, Draft.ofJson, Draft.ofMembers, choice, pick, hpick, lacksColon_ofJson, h,
    afterVariant]

theorem reads_bare (hpick : variants.find? (fun v => v.tag == tag) = some (bare tag a)) :
    Reads (choice variants) (.string tag) a := by
  simp only [Reads, Draft.ofJson, choice, ofTag, pick, hpick]
  rfl

theorem reads_around {make : α → β} (h : Reads decode v a) : Reads (around tag decode make).decode v (make a) :=
  reads_map make h

theorem reads_sequenced {tag name : String} (p : Product αs) (hmake : make p = b)
    (h : ReadsItems fields vs p) : Reads (sequenced tag name fields make).decode (.array vs) b := by
  have htuple := reads_tuple h ("tuple variant " ++ name)
    (countedElements ("tuple variant " ++ name) fields.keys.length)
  unfold Reads at htuple ⊢
  simp [sequenced, htuple, Except.map, hmake]

theorem reads_structured {tag name : String} (p : Product αs)
    (hmake : make p = b) (hkeys : fields.keys.Nodup) (h : ReadsMembers fields ms p) :
    Reads (structured tag name fields make).decode (.object ms) b := by
  have hrecord := reads_record h hkeys ("struct variant " ++ name)
  unfold Reads at hrecord ⊢
  simp [structured, hrecord, Except.map, hmake]

theorem reads_names {table : List (String × α)}
    (h : Assoc.get? tag table = some a) : Reads (names table) (.string tag) a := by
  refine reads_bare ?_
  induction table with
  | nil => cases h
  | cons entry rest ih =>
    obtain ⟨k, b⟩ := entry
    by_cases hk : k = tag
    · subst hk
      obtain rfl : b = a := by simpa [Assoc.get?] using h
      simp [bare]
    · have hrest := ih (by simpa [Assoc.get?_cons, Ne.symm hk] using h)
      simpa [bare, hk] using hrest

end SchemaCompiler.Decode
