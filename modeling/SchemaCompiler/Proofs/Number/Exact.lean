import Mathlib.Tactic.Ring
import Mathlib.Tactic.Linarith
import SchemaCompiler.Number.Binary64

/-!
# Doubles that are integers

Doubles are compared after they have been brought to a common exponent. For doubles that are
integers this is the order of the integers, and every integer up to `2 ^ 53` is a double.
-/
namespace SchemaCompiler.Binary64

variable {v w i : Int} {n : Nat}

/-! ## Values of integral doubles -/

def Denotes (x : Binary64) (v : Int) : Prop :=
  ∀ e ≤ x.exponent, x.scaled e * 2 ^ e.toNat = v * 2 ^ (-e).toNat

variable (negative : Bool)

def signed (n : Nat) : Int := if negative then -n else n

theorem scaled_eq_signed (x : Binary64) (e : Int) :
    x.scaled e = signed x.negative (x.significand * 2 ^ (x.exponent - e).toNat) := rfl

theorem signed_mul (n k : Nat) : signed negative n * (k : Int) = signed negative (n * k) := by
  cases negative <;> simp [signed]

theorem denotes_truncate {x : Binary64} (h : x.isIntegral = true) : x.Denotes x.truncate := by
  intro e he
  have hpow : ∀ n : Nat, ((2 : Int) ^ n) = ((2 ^ n : Nat)) := fun n => by rfl
  rw [scaled_eq_signed, hpow, hpow, signed_mul]
  by_cases hx : x.exponent ≥ 0
  · have ht : x.truncate = signed x.negative (x.significand * 2 ^ x.exponent.toNat) := by
      simp [truncate, hx, signed]
    rw [ht, signed_mul, Nat.mul_assoc, Nat.mul_assoc, ← Nat.pow_add, ← Nat.pow_add]
    congr 3
    omega
  · have hdvd : x.significand % 2 ^ (-x.exponent).toNat = 0 := by
      simpa [isIntegral, hx] using h
    have ht : x.truncate = signed x.negative (x.significand / 2 ^ (-x.exponent).toNat) := by
      simp [truncate, hx, signed]
    rw [ht, signed_mul]
    congr 1
    have hq : x.significand = x.significand / 2 ^ (-x.exponent).toNat * 2 ^ (-x.exponent).toNat :=
      (Nat.div_mul_cancel (Nat.dvd_of_mod_eq_zero hdvd)).symm
    rw [show e.toNat = 0 by omega, Nat.pow_zero, Nat.mul_one]
    conv_lhs => rw [hq]
    rw [Nat.mul_assoc, ← Nat.pow_add]
    congr 2
    omega

theorem compare_mul_pos (a b : Int) {k : Int} (hk : 0 < k) :
    Ord.compare (a * k) (b * k) = Ord.compare a b := by
  rcases lt_trichotomy a b with h | h | h
  · rw [compare_lt_iff_lt.2 h, compare_lt_iff_lt.2 (Int.mul_lt_mul_of_pos_right h hk)]
  · rw [h, compare_eq_iff_eq.2 rfl, compare_eq_iff_eq.2 rfl]
  · rw [compare_gt_iff_gt.2 h, compare_gt_iff_gt.2 (Int.mul_lt_mul_of_pos_right h hk)]

theorem compare_of_denotes {x y : Binary64} (hx : x.Denotes v) (hy : y.Denotes w) :
    x.compare y = Ord.compare v w := by
  have h := hx (min x.exponent y.exponent) (Int.min_le_left _ _)
  have h' := hy (min x.exponent y.exponent) (Int.min_le_right _ _)
  have hp : ∀ n : Nat, (0 : Int) < 2 ^ n := fun n => Int.pow_pos (by decide)
  show Ord.compare (x.scaled _) (y.scaled _) = _
  rw [← compare_mul_pos _ _ (hp (min x.exponent y.exponent).toNat), h, h',
    compare_mul_pos _ _ (hp _)]

theorem same_of_denotes {x y : Binary64} (hx : x.Denotes v) (hy : y.Denotes w) :
    x.same y = decide (v = w) := by
  rw [same, compare_of_denotes hx hy]
  by_cases h : v = w
  · simp [h]
  · simp [h]

/-! ## Small integers -/

theorem divideEven_mul_self (q den : Nat) (h : 0 < den) : divideEven (q * den) den = q := by
  have hq : q * den / den = q := Nat.mul_div_cancel q h
  simp only [divideEven, hq]
  have hne : ¬ 0 = den := by omega
  simp [hne]

theorem magnitude_one (h : 0 < n) : magnitude n 1 = n.log2 := by
  have hlog : 2 ^ n.log2 ≤ n := Nat.log2_self_le (by omega)
  simp only [magnitude, show Nat.log2 1 = 0 by decide]
  simp [show ¬ n < 2 ^ n.log2 by omega]

theorem nearest_of_lt (h : 0 < n) (hn : n < 2 ^ 53) :
    nearest negative n 1 = ⟨negative, n * 2 ^ (52 - n.log2), (n.log2 : Int) - 52⟩ := by
  have hlog : n.log2 < 53 := (Nat.log2_lt (by omega)).2 hn
  have hupper : n < 2 ^ (n.log2 + 1) := Nat.lt_log2_self
  have hsig : n * 2 ^ (52 - n.log2) ≠ 2 ^ 53 := by
    have hlt : n * 2 ^ (52 - n.log2) < 2 ^ (n.log2 + 1) * 2 ^ (52 - n.log2) :=
      Nat.mul_lt_mul_of_pos_right hupper (Nat.two_pow_pos _)
    rw [← Nat.pow_add, show n.log2 + 1 + (52 - n.log2) = 53 by omega] at hlt
    exact Nat.ne_of_lt hlt
  have hmax : max ((n.log2 : Int) - 52) minExponent = n.log2 - 52 := by
    simp only [minExponent]
    omega
  have hdiv : (if (n.log2 : Int) - 52 ≥ 0 then
      divideEven n (1 * 2 ^ ((n.log2 : Int) - 52).toNat)
      else divideEven (n * 2 ^ (-((n.log2 : Int) - 52)).toNat) 1) = n * 2 ^ (52 - n.log2) := by
    split
    · rw [show ((n.log2 : Int) - 52).toNat = 0 by omega, show 52 - n.log2 = 0 by omega]
      simpa using divideEven_mul_self n 1 (by decide)
    · simpa using divideEven_mul_self _ 1 (by decide)
  simp only [nearest, show n ≠ 0 by omega, if_false, magnitude_one h, hmax, hdiv, hsig]

theorem negative_nearest (num den : Nat) : (nearest negative num den).negative = negative := by
  unfold nearest
  dsimp only
  split
  · rfl
  · generalize max _ minExponent = exponent
    generalize (if exponent ≥ 0 then _ else _) = significand
    split <;> rfl

theorem nearest_two_pow : nearest negative (2 ^ 53) 1 = ⟨negative, 2 ^ 52, 1⟩ := by
  cases negative <;> decide +kernel

theorem signed_natAbs (i : Int) : signed (decide (i < 0)) i.natAbs = i := by
  by_cases h : i < 0
  · simp only [signed, h, decide_true, if_true]
    omega
  · simp only [signed, h, decide_false, Bool.false_eq_true, if_false]
    omega

theorem ofInt_spec (h : i.natAbs ≤ 2 ^ 53) :
    (ofInt i).isIntegral = true ∧ (ofInt i).truncate = i := by
  rcases Nat.eq_zero_or_pos i.natAbs with h0 | hpos
  · have hi : i = 0 := by omega
    subst hi
    decide +kernel
  · rcases Nat.lt_or_ge i.natAbs (2 ^ 53) with hlt | hge
    · have hlog : i.natAbs.log2 < 53 := (Nat.log2_lt (by omega)).2 hlt
      rw [ofInt, nearest_of_lt _ hpos hlt]
      rcases Nat.lt_or_ge i.natAbs.log2 52 with hk | hk
      · have hneg : ¬ (0 : Int) ≤ i.natAbs.log2 - 52 := by omega
        have hexp : (-((i.natAbs.log2 : Int) - 52)).toNat = 52 - i.natAbs.log2 := by omega
        refine ⟨by simp only [isIntegral]; simp, ?_⟩
        simp only [truncate, hneg, hexp,
          Nat.mul_div_cancel _ (Nat.two_pow_pos _)]
        exact signed_natAbs i
      · have hexp : (i.natAbs.log2 : Int) - 52 = 0 := by omega
        have hzero : 52 - i.natAbs.log2 = 0 := by omega
        rw [hexp, hzero]
        refine ⟨by simp [isIntegral], ?_⟩
        simp only [truncate, Int.toNat_zero, Nat.pow_zero,
          Nat.mul_one]
        exact signed_natAbs i
    · have heq : i.natAbs = 2 ^ 53 := by omega
      rw [ofInt, heq, nearest_two_pow]
      refine ⟨by simp [isIntegral], ?_⟩
      have hs := signed_natAbs i
      rw [heq] at hs
      exact hs

theorem denotes_ofInt (h : i.natAbs ≤ 2 ^ 53) : (ofInt i).Denotes i := by
  have hd := denotes_truncate (ofInt_spec h).1
  rwa [(ofInt_spec h).2] at hd

end SchemaCompiler.Binary64
