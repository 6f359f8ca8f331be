import SchemaCompiler.Proofs.Assoc
import SchemaCompiler.Proofs.Json.Reading

/-!
# Values as written and values as read

A value as written may repeat names in an object, and reading it as a value settles which member
counts. Where no name is repeated, nothing changes.
-/
namespace SchemaCompiler.Json

open Draft

/-! ## Drafts of values -/

mutual
@[simp] theorem Draft.depth_ofJson : (v : Json) → (ofJson v).depth = v.nesting
  | .null | .bool _ | .number _ | .string _ => rfl
  | .array items => by simp [ofJson, depth, nesting, depthItems_ofItems items]
  | .object members => by
    simp [ofJson, depth, nesting, depthMembers_ofMembers members]

@[simp] theorem Draft.depthItems_ofItems :
    (items : List Json) → depthItems (ofItems items) = nestingItems items
  | [] => rfl
  | v :: vs => by
    simp [ofItems, depthItems, nestingItems, depth_ofJson v,
      depthItems_ofItems vs]

@[simp] theorem Draft.depthMembers_ofMembers :
    (members : List (String × Json)) →
      depthMembers (ofMembers members) = nestingMembers members
  | [] => rfl
  | (k, v) :: vs => by
    simp [ofMembers, depthMembers, nestingMembers, depth_ofJson v,
      depthMembers_ofMembers vs]
end

theorem Draft.ofMembers_eq_map (members : List (String × Json)) :
    ofMembers members = members.map fun m => (m.1, ofJson m.2) := by
  induction members with
  | nil => rfl
  | cons m ms ih => simp [ofMembers, ih]

/-! ## Settled values -/

theorem toItems_ofItems (items : List Json) : toItems (ofItems items) = items.map settled := by
  induction items with
  | nil => rfl
  | cons v vs ih => simp [ofItems, toItems, ih, settled]

theorem toMembers_ofMembers (members : List (String × Json)) :
    toMembers (ofMembers members) = members.map fun m => (m.1, m.2.settled) := by
  induction members with
  | nil => rfl
  | cons m ms ih => simp [ofMembers, toMembers, ih, settled]

@[simp] theorem settled_null : settled .null = .null := rfl

@[simp] theorem settled_bool (b : Bool) : settled (.bool b) = .bool b := rfl

@[simp] theorem settled_number (n : Number) : settled (.number n) = .number n := rfl

@[simp] theorem settled_string (s : String) : settled (.string s) = .string s := rfl

@[simp] theorem settled_array (items : List Json) :
    settled (.array items) = .array (items.map settled) := by
  simp [settled, ofJson, toJson, toItems_ofItems]

@[simp] theorem settled_object (members : List (String × Json)) :
    settled (.object members) =
      .object (Assoc.ofList (members.map fun m => (m.1, m.2.settled))) := by
  simp [settled, ofJson, toJson, toMembers_ofMembers]

theorem distinctItems_iff {items : List Json} : DistinctItems items ↔ ∀ v ∈ items, v.Distinct := by
  induction items with
  | nil => simp [DistinctItems]
  | cons v vs ih => simp [DistinctItems, ih]

theorem distinctMembers_iff {members : List (String × Json)} :
    DistinctMembers members ↔ ∀ m ∈ members, m.2.Distinct := by
  induction members with
  | nil => simp [DistinctMembers]
  | cons m ms ih => simp [DistinctMembers, ih]

/-- Induction on values, with what holds of all items and of the values of all members. -/
theorem induction_parts {motive : Json → Prop} (null : motive .null) (bool : ∀ b, motive (.bool b))
    (number : ∀ n, motive (.number n)) (string : ∀ s, motive (.string s))
    (array : ∀ items, (∀ v ∈ items, motive v) → motive (.array items))
    (object : ∀ members, (∀ m ∈ members, motive m.2) → motive (.object members)) (v : Json) :
    motive v :=
  @Json.rec motive _ _
    _ null bool number string array object (by simp)
    (fun _ _ hv hrest => List.forall_mem_cons.2 ⟨hv, hrest⟩) (by simp)
    (fun _ _ hm hrest => List.forall_mem_cons.2 ⟨hm, hrest⟩) (fun _ _ => id) v

theorem settled_of_distinct {v : Json} (h : v.Distinct) : v.settled = v := by
  induction v using induction_parts with
  | array items ih =>
    have hitems : items.map settled = items.map id :=
      List.map_congr_left fun v hv => ih v hv (distinctItems_iff.1 h v hv)
    rw [settled_array, hitems, List.map_id]
  | object members ih =>
    have hmembers : (members.map fun m => (m.1, m.2.settled)) = members.map id :=
      List.map_congr_left fun m hm => congrArg (m.1, ·) (ih m hm (distinctMembers_iff.1 h.2 m hm))
    rw [settled_object, hmembers, List.map_id, Assoc.ofList_of_nodup h.1]
  | _ => rfl

/-! ## The numbers of a value -/

theorem allNumbersItems_iff {p : Number → Prop} {items : List Json} :
    AllNumbersItems p items ↔ ∀ v ∈ items, v.AllNumbers p := by
  induction items with
  | nil => simp [AllNumbersItems]
  | cons v vs ih => simp [AllNumbersItems, ih]

theorem allNumbersMembers_iff {p : Number → Prop} {members : List (String × Json)} :
    AllNumbersMembers p members ↔ ∀ m ∈ members, m.2.AllNumbers p := by
  induction members with
  | nil => simp [AllNumbersMembers]
  | cons m ms ih => simp [AllNumbersMembers, ih]

theorem AllNumbers.imp {p q : Number → Prop} (hpq : ∀ n, p n → q n) {v : Json}
    (h : v.AllNumbers p) : v.AllNumbers q := by
  induction v using induction_parts with
  | number n => exact hpq n h
  | array items ih =>
    exact allNumbersItems_iff.2 fun v hv => ih v hv (allNumbersItems_iff.1 h v hv)
  | object members ih =>
    exact allNumbersMembers_iff.2 fun m hm => ih m hm (allNumbersMembers_iff.1 h m hm)
  | _ => trivial

end SchemaCompiler.Json
