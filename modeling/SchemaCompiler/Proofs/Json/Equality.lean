import Mathlib.Data.List.Perm.Subperm
import SchemaCompiler.Json.Equality
import SchemaCompiler.Proofs.Json.Alike
import SchemaCompiler.Proofs.Number.Exact

/-!
# Equality as a relation

The equality that schemas ask for goes through arrays in order and looks up the members of objects
by name. As a relation it pairs the parts of two values, and only numbers are told apart by more than
their form. Signed integers are compared exactly and other numbers as doubles, so this is an
equivalence as long as no two different signed integers meet in one double.
-/
namespace SchemaCompiler

open Assoc

/-! ## Numbers -/

namespace Binary64

variable {x y : Binary64} {e : Int}

theorem scaled_of_le {d : Int} (h : d ≤ e) (he : e ≤ x.exponent) :
    x.scaled d = x.scaled e * (2 ^ (e - d).toNat : Nat) := by
  rw [scaled_eq_signed, scaled_eq_signed, signed_mul, Nat.mul_assoc, ← Nat.pow_add]
  congr 3
  omega

/-- Doubles may be compared at any exponent that is not above theirs. -/
theorem compare_eq_scaled (hx : e ≤ x.exponent) (hy : e ≤ y.exponent) :
    x.compare y = Ord.compare (x.scaled e) (y.scaled e) := by
  have he : e ≤ min x.exponent y.exponent := Int.le_min.2 ⟨hx, hy⟩
  rw [scaled_of_le he (Int.min_le_left _ _), scaled_of_le he (Int.min_le_right _ _),
    compare_mul_pos _ _ (Int.natCast_pos.2 (Nat.two_pow_pos _))]
  rfl

theorem same_iff (hx : e ≤ x.exponent) (hy : e ≤ y.exponent) :
    x.same y = true ↔ x.scaled e = y.scaled e := by
  rw [same, compare_eq_scaled hx hy, beq_iff_eq, compare_eq_iff_eq]

theorem same_refl (x : Binary64) : x.same x = true :=
  (same_iff (Int.le_refl _) (Int.le_refl _)).2 rfl

theorem same_symm (h : x.same y = true) : y.same x = true :=
  (same_iff (Int.min_le_right _ _) (Int.min_le_left _ _)).2
    ((same_iff (Int.min_le_left _ _) (Int.min_le_right _ _)).1 h).symm

theorem same_trans {z : Binary64} (h : x.same y = true) (h' : y.same z = true) :
    x.same z = true := by
  let e := min x.exponent (min y.exponent z.exponent)
  have hx : e ≤ x.exponent := by omega
  have hy : e ≤ y.exponent := by omega
  have hz : e ≤ z.exponent := by omega
  exact (same_iff hx hz).2 (((same_iff hx hy).1 h).trans ((same_iff hy hz).1 h'))

end Binary64

namespace Json
variable {ms ns : List (String × Json)} {v : Json}

namespace Number

variable {i : Int} {a b : Number}

/-- The number is compared as an integer with others of its kind. -/
def IsSigned (n : Number) : Prop := ∃ i, n.signed? = some i

/-- A signed integer that is the value of its double, or no signed integer at all. -/
def IsExact (n : Number) : Prop := ∀ i, n.signed? = some i → n.toBinary64.Denotes i

theorem eq_int_of_signed? {n : Number} (h : n.signed? = some i) : n = .int i := by
  cases n with
  | float x => cases h
  | int j =>
    simp only [signed?, Option.ite_none_right_eq_some, Option.some.injEq] at h
    rw [h.2]

theorem isExact_int (h : i.natAbs ≤ 2 ^ 53) : (int i).IsExact := by
  intro j hj
  cases eq_int_of_signed? hj
  exact Binary64.denotes_ofInt h

theorem equal_of_signed {j : Int} (ha : a.signed? = some i) (hb : b.signed? = some j) :
    a.equal b = true ↔ a = b := by
  rw [eq_int_of_signed? ha, eq_int_of_signed? hb] at *
  simp [equal, ha, hb]

theorem equal_eq_same (h : ∀ i j, a.signed? = some i → b.signed? = some j → False) :
    a.equal b = a.toBinary64.same b.toBinary64 := by
  cases ha : a.signed? with
  | none => simp [equal]
  | some i =>
    cases hb : b.signed? with
    | none => simp [equal]
    | some j => exact (h i j ha hb).elim

/-- Equal numbers are the same double. -/
theorem same_of_equal (h : a.equal b = true) : a.toBinary64.same b.toBinary64 = true := by
  by_cases hs : a.IsSigned ∧ b.IsSigned
  · obtain ⟨⟨i, hi⟩, ⟨j, hj⟩⟩ := hs
    rw [(equal_of_signed hi hj).1 h]
    exact Binary64.same_refl _
  · rwa [equal_eq_same fun i j hi hj => hs ⟨⟨i, hi⟩, ⟨j, hj⟩⟩] at h

theorem equal_refl (a : Number) : a.equal a = true := by
  cases ha : a.signed? with
  | none => simp [equal, ha, Binary64.same_refl]
  | some i => exact (equal_of_signed ha ha).2 rfl

theorem equal_symm (h : a.equal b = true) : b.equal a = true := by
  by_cases hs : a.IsSigned ∧ b.IsSigned
  · obtain ⟨⟨i, hi⟩, ⟨j, hj⟩⟩ := hs
    exact (equal_of_signed hj hi).2 ((equal_of_signed hi hj).1 h).symm
  · rw [equal_eq_same fun j i hj hi => hs ⟨⟨i, hi⟩, ⟨j, hj⟩⟩]
    exact Binary64.same_symm (same_of_equal h)

/-- The doubles decide between exact numbers. -/
theorem equal_of_same (ha : a.IsExact) (hb : b.IsExact)
    (h : a.toBinary64.same b.toBinary64 = true) : a.equal b = true := by
  by_cases hs : a.IsSigned ∧ b.IsSigned
  · obtain ⟨⟨i, hi⟩, ⟨j, hj⟩⟩ := hs
    rw [Binary64.same_of_denotes (ha i hi) (hb j hj), decide_eq_true_eq] at h
    rw [equal_of_signed hi hj, eq_int_of_signed? hi, eq_int_of_signed? hj, h]
  · rwa [equal_eq_same fun i j hi hj => hs ⟨⟨i, hi⟩, ⟨j, hj⟩⟩]

end Number

/-! ## Values -/

/-- Two values whose parts are paired: items by place, members by name, and numbers that are
equal. -/
inductive Equals : Json → Json → Prop
  | null : Equals .null .null
  | bool (b : Bool) : Equals (.bool b) (.bool b)
  | number {a b : Number} (h : a.equal b = true) : Equals (.number a) (.number b)
  | string (s : String) : Equals (.string s) (.string s)
  | array {xs ys : List Json} (hlength : xs.length = ys.length)
      (h : ∀ (i : Nat) x y, xs[i]? = some x → ys[i]? = some y → Equals x y) :
      Equals (.array xs) (.array ys)
  | object {ms ns : List (String × Json)}
      (hnames : ∀ k, Assoc.get? k ms = none ↔ Assoc.get? k ns = none)
      (h : ∀ k v w, Assoc.get? k ms = some v → Assoc.get? k ns = some w → Equals v w) :
      Equals (.object ms) (.object ns)

theorem equalItems_iff {xs ys : List Json} :
    equalItems Number.equal xs ys = true ↔ xs.length = ys.length ∧
      ∀ (i : Nat) x y, xs[i]? = some x → ys[i]? = some y → equal x y = true := by
  induction xs generalizing ys with
  | nil => cases ys <;> simp [equalItems]
  | cons x xs ih =>
    cases ys with
    | nil => simp [equalItems]
    | cons y ys =>
      simp only [equalItems, Bool.and_eq_true, ih, List.length_cons, Nat.add_right_cancel_iff]
      refine ⟨fun ⟨hxy, hlength, h⟩ => ⟨hlength, fun i => ?_⟩, fun ⟨hlength, h⟩ =>
        ⟨h 0 x y rfl rfl, hlength, fun i => h (i + 1)⟩⟩
      cases i with
      | zero => simpa using hxy
      | succ i => simpa using h i

theorem equalMembers_iff : equalMembers Number.equal ms ns = true ↔
      ∀ m ∈ ms, ∃ w, Assoc.get? m.1 ns = some w ∧ equal m.2 w = true := by
  induction ms with
  | nil => simp [equalMembers]
  | cons m ms ih =>
    obtain ⟨k, v⟩ := m
    cases hk : Assoc.get? k ns <;> simp [equalMembers, hk, ih]

/-- Objects are equal if the same names have equal values in them: as many names that are all
found are all the names. -/
theorem equal_object_iff (hms : (ms.map Prod.fst).Nodup) (hns : (ns.map Prod.fst).Nodup) :
    equal (.object ms) (.object ns) = true ↔
      (∀ k, Assoc.get? k ms = none ↔ Assoc.get? k ns = none) ∧
        ∀ k v w, Assoc.get? k ms = some v → Assoc.get? k ns = some w → equal v w = true := by
  simp only [equalBy, Bool.and_eq_true, beq_iff_eq, equalMembers_iff]
  constructor
  · rintro ⟨hlength, h⟩
    have hsub : ms.map Prod.fst ⊆ ns.map Prod.fst := by
      intro k hk
      obtain ⟨m, hm, rfl⟩ := List.mem_map.1 hk
      obtain ⟨w, hw, -⟩ := h m hm
      exact mem_keys_of_get?_eq_some hw
    have hperm : (ms.map Prod.fst).Perm _ :=
      (hms.subperm hsub).perm_of_length_le (by simp [hlength])
    refine ⟨fun k => ?_, fun k v w hv hw => ?_⟩
    · rw [get?_eq_none_iff, get?_eq_none_iff, hperm.mem_iff]
    · obtain ⟨w', hw', heq⟩ := h _ (mem_of_get?_eq_some hv)
      cases hw.symm.trans hw'
      exact heq
  · rintro ⟨hnames, h⟩
    have hperm : (ms.map Prod.fst).Perm (ns.map Prod.fst) := by
      refine (List.perm_ext_iff_of_nodup hms hns).2 fun k => ?_
      simpa only [get?_eq_none_iff, not_iff_not] using hnames k
    refine ⟨by simpa using hperm.length_eq, fun m hm => ?_⟩
    have hv := (get?_eq_some_iff hms).2 (show (m.1, m.2) ∈ ms from hm)
    cases hw : Assoc.get? m.1 ns with
    | none => rw [(hnames m.1).2 hw] at hv; cases hv
    | some w => exact ⟨w, rfl, h _ _ _ hv hw⟩

theorem distinct_of_get? (h : (Json.object ms).Distinct) {k : String}
    (hv : Assoc.get? k ms = some v) : v.Distinct :=
  distinctMembers_iff.1 h.2 _ (mem_of_get?_eq_some hv)

theorem equals_of_equal {w : Json} (hv : v.Distinct) (hw : w.Distinct) (h : equal v w = true) :
    Equals v w := by
  induction v using induction_parts generalizing w with
  | array xs ih =>
    cases w with
    | array ys =>
      obtain ⟨hlength, h⟩ := equalItems_iff.1 (by simpa only [equalBy] using h)
      refine .array hlength fun i x y hx hy => ?_
      have hx' := List.mem_of_getElem? hx
      exact ih x hx' (distinctItems_iff.1 hv x hx')
        (distinctItems_iff.1 hw y (List.mem_of_getElem? hy)) (h i x y hx hy)
    | _ => simp [equalBy] at h
  | object ms ih =>
    cases w with
    | object ns =>
      obtain ⟨hnames, h⟩ := (equal_object_iff hv.1 hw.1).1 h
      exact .object hnames fun k v w hkv hkw => ih _ (mem_of_get?_eq_some hkv)
        (distinct_of_get? hv hkv) (distinct_of_get? hw hkw) (h k v w hkv hkw)
    | _ => simp [equalBy] at h
  | _ => ?_
  all_goals cases w <;> simp only [equalBy, beq_iff_eq, Bool.false_eq_true] at h
  · exact .null
  · exact h ▸ .bool _
  · exact .number h
  · exact h ▸ .string _

theorem Equals.equal {v w : Json} (h : Equals v w) (hv : v.Distinct) (hw : w.Distinct) :
    equal v w = true := by
  induction h with
  | null => rfl
  | bool | string => simp [equalBy]
  | number h => exact h
  | array hlength _ ih =>
    refine equalItems_iff.2 ⟨hlength, fun i x y hx hy => ih i x y hx hy
      (distinctItems_iff.1 hv x (List.mem_of_getElem? hx))
      (distinctItems_iff.1 hw y (List.mem_of_getElem? hy))⟩
  | object hnames _ ih =>
    exact (equal_object_iff hv.1 hw.1).2 ⟨hnames, fun k v w hkv hkw => ih k v w hkv hkw
      (distinct_of_get? hv hkv) (distinct_of_get? hw hkw)⟩

namespace Equals

variable {v w : Json}

theorem refl (v : Json) : Equals v v := by
  induction v using induction_parts with
  | null => exact .null
  | bool b => exact .bool b
  | number n => exact .number n.equal_refl
  | string s => exact .string s
  | array xs ih =>
    refine .array rfl fun i x y hx hy => ?_
    cases hx.symm.trans hy
    exact ih x (List.mem_of_getElem? hx)
  | object ms ih =>
    refine .object (fun k => Iff.rfl) fun k v w hv hw => ?_
    cases hv.symm.trans hw
    exact ih _ (mem_of_get?_eq_some hv)

theorem symm {v w : Json} (h : Equals v w) : Equals w v := by
  induction h with
  | null => exact .null
  | bool b => exact .bool b
  | number h => exact .number (Number.equal_symm h)
  | string s => exact .string s
  | array hlength _ ih => exact .array hlength.symm fun i y x hy hx => ih i x y hx hy
  | object hnames _ ih => exact .object (fun k => (hnames k).symm) fun k w v hw hv => ih k v w hv hw

/-- Equality passes on between values without large integers, whatever is in the value between. -/
theorem trans {u v w : Json} (h : Equals u v) (h' : Equals v w) (hu : u.AllNumbers Number.IsExact)
    (hw : w.AllNumbers Number.IsExact) : Equals u w := by
  induction h generalizing w with
  | null | bool | string => exact h'
  | number h =>
    cases h' with
    | number h' =>
      exact .number (Number.equal_of_same hu hw
        (Binary64.same_trans (Number.same_of_equal h) (Number.same_of_equal h')))
  | @array xs ys hlength h ih =>
    cases h' with
    | @array _ zs hlength' h' =>
      refine .array (hlength.trans hlength') fun i x z hx hz => ?_
      obtain ⟨hi, -⟩ := List.getElem?_eq_some_iff.1 hx
      have hy : ys[i]? = some ys[i] := List.getElem?_eq_getElem _
      exact ih i x _ hx hy (h' i _ z hy hz) (allNumbersItems_iff.1 hu x (List.mem_of_getElem? hx))
        (allNumbersItems_iff.1 hw z (List.mem_of_getElem? hz))
  | @object ms ns hnames h ih =>
    cases h' with
    | @object _ ls hnames' h' =>
      refine .object (fun k => (hnames k).trans (hnames' k)) fun k v w hv hw' => ?_
      cases hy : Assoc.get? k ns with
      | none => rw [(hnames k).2 hy] at hv; cases hv
      | some y =>
        exact ih k v y hv hy (h' k y w hy hw')
          (allNumbersMembers_iff.1 hu _ (mem_of_get?_eq_some hv))
          (allNumbersMembers_iff.1 hw _ (mem_of_get?_eq_some hw'))

theorem alike (h : Equals v w) (hv : v.AllNumbers Number.IsSigned)
    (hw : w.AllNumbers Number.IsSigned) : Alike v w := by
  induction h with
  | null | bool | string => exact .refl _
  | number h =>
    obtain ⟨i, hi⟩ := hv
    obtain ⟨j, hj⟩ := hw
    rw [(Number.equal_of_signed hi hj).1 h]
    exact .refl _
  | array hlength _ ih =>
    exact .array hlength fun i x y hx hy => ih i x y hx hy
      (allNumbersItems_iff.1 hv x (List.mem_of_getElem? hx))
      (allNumbersItems_iff.1 hw y (List.mem_of_getElem? hy))
  | object hnames _ ih =>
    exact .object hnames fun k v w hkv hkw => ih k v w hkv hkw
      (allNumbersMembers_iff.1 hv _ (mem_of_get?_eq_some hkv))
      (allNumbersMembers_iff.1 hw _ (mem_of_get?_eq_some hkw))

theorem of_alike (h : Alike v w) : Equals v w := by
  induction h with
  | refl v => exact refl v
  | array hlength _ ih => exact .array hlength ih
  | object hnames _ ih => exact .object hnames ih

end Equals

/-- Equality is reflexive and symmetric, it passes on between values whose signed integers are
doubles, and between signed integers it is equality up to the order of members. -/
theorem equal_lawful {u v w : Json} (hu : u.Distinct) (hv : v.Distinct) (hw : w.Distinct) :
    equal u u = true ∧ equal u v = equal v u ∧
      (u.AllNumbers Number.IsExact → w.AllNumbers Number.IsExact →
        equal u v = true → equal v w = true → equal u w = true) ∧
      (u.AllNumbers Number.IsSigned → v.AllNumbers Number.IsSigned →
        (equal u v = true ↔ Alike u v)) := by
  refine ⟨(Equals.refl u).equal hu hu, ?_, fun hnu hnw huv hvw => ?_, fun hnu hnv => ?_⟩
  · exact Bool.eq_iff_iff.2 ⟨fun h => (equals_of_equal hu hv h).symm.equal hv hu,
      fun h => (equals_of_equal hv hu h).symm.equal hu hv⟩
  · exact ((equals_of_equal hu hv huv).trans (equals_of_equal hv hw hvw) hnu hnw).equal hu hw
  · exact ⟨fun h => (equals_of_equal hu hv h).alike hnu hnv,
      fun h => (Equals.of_alike h).equal hu hv⟩

/-- Members in another order and doubles for integers, up to the largest integer that all doubles
below have room for. -/
theorem equal_lawful_of_order :
    let one : Json := .number (.int 1)
    let big : Json := .number (.int (2 ^ 53))
    let u : Json := .object [("a", big), ("b", .array [one])]
    let v : Json := .object [("b", .array [.number (.float ⟨false, 1, 0⟩)]),
      ("a", .number (.float ⟨false, 1, 53⟩))]
    let w : Json := .object [("b", .array [one]), ("a", big)]
    equal u v = true ∧ equal v w = true ∧ equal u w = true ∧ equal w v = equal v w ∧
      Alike u w := by
  intro one big u v w
  have hexact : u.AllNumbers Number.IsExact ∧ w.AllNumbers Number.IsExact := by
    have h : Number.IsExact (.int 1) := Number.isExact_int (by decide)
    have h' : Number.IsExact (.int (2 ^ 53)) := Number.isExact_int (by decide)
    exact ⟨⟨h', ⟨h, trivial⟩, trivial⟩, ⟨⟨h, trivial⟩, h', trivial⟩⟩
  have hsigned : u.AllNumbers Number.IsSigned ∧ w.AllNumbers Number.IsSigned :=
    ⟨⟨⟨_, rfl⟩, ⟨⟨_, rfl⟩, trivial⟩, trivial⟩, ⟨⟨⟨_, rfl⟩, trivial⟩, ⟨_, rfl⟩, trivial⟩⟩
  have hu : u.Distinct := ⟨by decide, trivial, ⟨trivial, trivial⟩, trivial⟩
  have hv : v.Distinct := ⟨by decide, ⟨trivial, trivial⟩, trivial, trivial⟩
  have hw : w.Distinct := ⟨by decide, ⟨trivial, trivial⟩, trivial, trivial⟩
  have huv : equal u v = true := by decide +kernel
  have hvw : equal v w = true := by decide +kernel
  have huw := (equal_lawful hu hv hw).2.2.1 hexact.1 hexact.2 huv hvw
  exact ⟨huv, hvw, huw, (equal_lawful hw hv hw).2.1,
    ((equal_lawful hu hw hw).2.2.2 hsigned.1 hsigned.2).1 huw⟩

/-- Unsigned integers are taken for the doubles next to them, and two signed integers that differ
are equal to one double. -/
theorem equal_of_rounding :
    let int (i : Int) : Json := .number (.int i)
    let double : Json := .number (.float ⟨false, 1, 53⟩)
    equal (int (2 ^ 64 - 1)) (int (2 ^ 64 - 2)) = true ∧
      equal (int (2 ^ 53 + 1)) double = true ∧ equal double (int (2 ^ 53)) = true ∧
      equal (int (2 ^ 53 + 1)) (int (2 ^ 53)) = false := by
  decide +kernel

end Json
end SchemaCompiler
