import SchemaCompiler.Proofs.Number.Exact
import SchemaCompiler.Proofs.TypeDefinition.Conformance

/-!
# Integers against bounds

Numbers are compared as doubles, and an integer above `2 ^ 53` may not be a double. Against a bound
below that the order is right nevertheless, since rounding does not take a large integer below
`2 ^ 53`.
-/
namespace SchemaCompiler

namespace Binary64

theorem le_divideEven (num den : Nat) : num / den ≤ divideEven num den := by
  unfold divideEven
  dsimp only
  split <;> omega

theorem nearest_of_ge (negative : Bool) {n : Nat} (h : 2 ^ 53 ≤ n) :
    ∃ s e, nearest negative n 1 = ⟨negative, s, e⟩ ∧ 2 ^ 52 ≤ s ∧ 1 ≤ e := by
  have hpos : 0 < n := by omega
  have hlog : 53 ≤ n.log2 := (Nat.le_log2 (by omega)).2 h
  have hmax : max ((n.log2 : Int) - 52) minExponent = n.log2 - 52 := by
    simp only [minExponent]
    omega
  have hge : (n.log2 : Int) - 52 ≥ 0 := by omega
  have hsig : 2 ^ 52 ≤ divideEven n (1 * 2 ^ ((n.log2 : Int) - 52).toNat) := by
    refine Nat.le_trans ?_ (le_divideEven _ _)
    rw [Nat.one_mul, Nat.le_div_iff_mul_le (Nat.two_pow_pos _), ← Nat.pow_add,
      show 52 + ((n.log2 : Int) - 52).toNat = n.log2 by omega]
    exact Nat.log2_self_le (by omega)
  simp only [nearest, show n ≠ 0 by omega, if_false, magnitude_one hpos, hmax, hge, if_true]
  split
  · exact ⟨_, _, rfl, Nat.le_refl _, by omega⟩
  · exact ⟨_, _, rfl, hsig, by omega⟩

theorem denotes_ofInt_of_ge {i : Int} (h : 2 ^ 53 ≤ i.natAbs) :
    ∃ n : Nat, 2 ^ 53 ≤ n ∧ (ofInt i).Denotes (signed (decide (i < 0)) n) := by
  obtain ⟨s, e, heq, hs, he⟩ := nearest_of_ge _ h
  have hofInt : ofInt i = ⟨decide (i < 0), s, e⟩ := heq
  have hintegral : (ofInt i).isIntegral = true := by simp [hofInt, isIntegral, show 0 ≤ e by omega]
  refine ⟨s * 2 ^ e.toNat, ?_, ?_⟩
  · have hpow : 2 ^ 1 ≤ 2 ^ e.toNat := Nat.pow_le_pow_right (by decide) (by omega)
    calc 2 ^ 53 = 2 ^ 52 * 2 ^ 1 := by decide
      _ ≤ s * 2 ^ e.toNat := Nat.mul_le_mul hs hpow
  · have htruncate : (ofInt i).truncate = signed (decide (i < 0)) (s * 2 ^ e.toNat) := by
      simp [hofInt, truncate, signed, show 0 ≤ e by omega]
    rw [← htruncate]
    exact denotes_truncate hintegral

end Binary64

/-- An integer is compared with a small bound as integers are, however it is represented. -/
theorem Json.Number.compare_toBinary64 {n : Json.Number} {i b : Int} (hn : n.integer? = some i)
    (hb : b.natAbs < 2 ^ 53) : n.toBinary64.compare (Binary64.ofInt b) = Ord.compare i b := by
  have hbound := Binary64.denotes_ofInt (Nat.le_of_lt hb)
  cases n with
  | float x =>
    by_cases hx : x.isIntegral = true
    · simp only [Json.Number.integer?, hx, if_true, Option.some.injEq] at hn
      subst hn
      exact Binary64.compare_of_denotes (Binary64.denotes_truncate hx) hbound
    · simp [Json.Number.integer?, hx] at hn
  | int j =>
    obtain rfl : j = i := by simpa [Json.Number.integer?] using hn
    by_cases hsmall : j.natAbs ≤ 2 ^ 53
    · exact Binary64.compare_of_denotes (Binary64.denotes_ofInt hsmall) hbound
    · obtain ⟨k, hk, hj⟩ := Binary64.denotes_ofInt_of_ge (i := j) (by omega)
      have hcompare := Binary64.compare_of_denotes hj hbound
      refine hcompare.trans ?_
      by_cases hneg : j < 0
      · rw [decide_eq_true hneg, compare_lt_iff_lt.2 (by simp only [Binary64.signed, if_true]; omega),
          compare_lt_iff_lt.2 (by omega)]
      · rw [decide_eq_false hneg,
          compare_gt_iff_gt.2 (by simp only [Binary64.signed, Bool.false_eq_true, if_false]; omega),
          compare_gt_iff_gt.2 (by omega)]

theorem Json.Number.integer?_eq_none_iff {n : Json.Number} :
    n.integer? = none ↔ n.isIntegral = false := by
  cases n with
  | int i | float i => simp [Json.Number.integer?, Json.Number.isIntegral]

end SchemaCompiler
