import Mathlib.Tactic.IntervalCases
import Mathlib.Tactic.Linarith
import Mathlib.Tactic.SplitIfs
import SchemaCompiler.Proofs.Json.Reading

/-!
# The printer and the grammar

What the printer writes is compact text of the value that it was given: the grammar has no room for
blanks in it. This holds of values whose numbers are integers of 64 bits or the negative zero.
-/
namespace SchemaCompiler.Json

/-! ## Strings -/

theorem hexWord?_control : ∀ n < 32,
    hexWord? '0' '0' (hexDigit (n / 16)) (hexDigit (n % 16)) = some n := by decide

theorem letters_escapeChar (c : Char) {cs s rest : List Char} (h : Letters cs s rest) :
    Letters (escapeChar c ++ cs) (c :: s) rest := by
  unfold escapeChar
  split_ifs with hquote hslash hb hf hn hr ht hcontrol
  · subst hquote; exact .short rfl h
  · subst hslash; exact .short rfl h
  · exact hb ▸ .short rfl h
  · exact hf ▸ .short rfl h
  · exact hn ▸ .short rfl h
  · exact hr ▸ .short rfl h
  · exact ht ▸ .short rfl h
  · have hcode := Letters.code (hexWord?_control c.toNat hcontrol) (by omega) h
    rwa [Char.ofNat_toNat] at hcode
  · exact .plain hquote hslash (by omega) h

theorem letters_escape (s rest : List Char) :
    Letters (s.flatMap escapeChar ++ '"' :: rest) s rest := by
  induction s with
  | nil => exact .close rest
  | cons c s ih =>
    rw [List.flatMap_cons, List.append_assoc]
    exact letters_escapeChar c ih

theorem quote_toList (s : String) :
    (quote s).toList = '"' :: (s.toList.flatMap escapeChar ++ ['"']) := by
  simp [quote]

theorem spells_quote (s : String) (ws : Bool) (rest : List Char) :
    Spells ws ((quote s).toList ++ rest) (.string s) rest := by
  have h : Spells ws _ _ rest := .string (letters_escape s.toList rest)
  simpa [quote_toList] using h

theorem spellsField_quote (k : String) {cs rest : List Char} {v : Json}
    (h : Spells false cs v rest) : SpellsField false ((quote k).toList ++ ':' :: cs) (k, v) rest := by
  have hfield := SpellsField.mk (.nil _) (letters_escape k.toList (':' :: cs)) (.nil _) (.nil _) h
  simpa [quote_toList] using hfield

/-! ## Numbers -/

theorem absorb_of_le {ds : List Char} (hds : ∀ c ∈ ds, c.isDigit = true) (n : Nat)
    (h : Nat.ofDigitChars 10 ds n ≤ maxUnsigned) :
    absorb n ds = (Nat.ofDigitChars 10 ds n, ds.length, []) := by
  induction ds generalizing n with
  | nil => rfl
  | cons d ds ih =>
    rw [Nat.ofDigitChars_cons] at h ⊢
    rw [show 10 * n + (d.toNat - '0'.toNat) = n * 10 + (d.toNat - 48) by
      rw [Nat.mul_comm]; rfl] at h ⊢
    have hfit : n * 10 + (d.toNat - 48) ≤ maxUnsigned := by
      refine Nat.le_trans ?_ h
      rw [Nat.ofDigitChars_eq_ofDigitChars_zero]
      have : 1 ≤ 10 ^ ds.length := Nat.one_le_pow _ _ (by decide)
      nlinarith
    simp [absorb, hds d, hfit, ih (fun c hc => hds c (by simp [hc])) _ h]

theorem head?_toDigits {n : Nat} (h : (Nat.toDigits 10 n).head? = some '0') : n = 0 := by
  induction n using Nat.strongRecOn with
  | _ n ih =>
    by_cases hn : n < 10
    · rw [Nat.toDigits_of_lt_base hn] at h
      interval_cases n <;> simp_all [Nat.digitChar]
    · rw [Nat.toDigits_of_base_le (by decide) (by omega),
        List.head?_append, Option.or_of_isSome (by simp [Nat.toDigits_ne_nil])] at h
      have := ih (n / 10) (by omega) h
      omega

theorem isWhole_toDigits (n : Nat) : IsWhole (Nat.toDigits 10 n) := by
  refine ⟨⟨Nat.toDigits_ne_nil, fun c hc => ?_⟩, fun h => ?_⟩
  · exact Nat.isDigit_of_mem_toDigits (by decide) (by decide) hc
  · rw [head?_toDigits h, Nat.toDigits_zero]

theorem isUnsigned_toDigits (n : Nat) : IsUnsigned (Nat.toDigits 10 n) :=
  ⟨Nat.toDigits 10 n, [], [], by simp, isWhole_toDigits n, .inl rfl, .inl rfl⟩

theorem readNumber_toDigits (negative : Bool) {n : Nat} (h : n ≤ maxUnsigned) :
    readNumber negative (Nat.toDigits 10 n) = readNumberEnd negative n 0 [] := by
  by_cases hn : n = 0
  · subst hn
    rfl
  · have hds := (isWhole_toDigits n).1
    have habsorb := absorb_of_le hds.2 0 (by rwa [Nat.ofDigitChars_ten_toDigits])
    rw [Nat.ofDigitChars_ten_toDigits] at habsorb
    cases hd : Nat.toDigits 10 n with
    | nil => exact absurd hd Nat.toDigits_ne_nil
    | cons d ds =>
      have hdigit : d.isDigit = true := hds.2 d (by simp [hd])
      have hzero : d ≠ '0' := by
        rintro rfl
        exact hn (head?_toDigits (by simp [hd]))
      rw [hd] at habsorb
      rw [readNumber.eq_def]
      simp [hdigit, habsorb]

theorem toList_toString_int (i : Int) :
    (toString i).toList = if 0 ≤ i then Nat.toDigits 10 i.toNat
      else '-' :: Nat.toDigits 10 i.natAbs := by
  cases i with
  | ofNat n | negSucc n => simp [Int.repr]

theorem numeral_render {n : Number} (h : n.IsWhole) : Numeral n.render.toList n := by
  rcases h with ⟨i, rfl, hmin, hmax⟩ | rfl
  · simp only [Number.render, toList_toString_int]
    split_ifs with hi
    · refine .unsigned (isUnsigned_toDigits _) (readNumeral?_eq_some.mpr ?_)
      rw [readNumber_toDigits false (by omega)]
      simp [readNumberEnd, Int.toNat_of_nonneg hi]
    · refine .negative (isUnsigned_toDigits _) (readNumeral?_eq_some.mpr ?_)
      have : i.natAbs = -i := by omega
      rw [readNumber_toDigits true (by simp [minSigned, maxUnsigned] at *; omega)]
      have hne : ¬ (i.natAbs = 0 ∨ minSigned > -i.natAbs) := by omega
      rw [readNumberEnd.eq_def]
      simp only [ne_eq, not_true_eq_false, if_false, Bool.true_eq_false]
      rw [if_neg hne, this, neg_neg]
  · refine .negative ⟨['0'], ['.', '0'], [], rfl, isWhole_toDigits 0, ?_, .inl rfl⟩ (by decide)
    exact .inr ⟨['0'], rfl, (isWhole_toDigits 0).1⟩

/-! ## Values -/

mutual
theorem spells_render : (v : Json) → AllNumbers Number.IsWhole v → (rest : List Char) →
    Spells false (v.render.toList ++ rest) v rest
  | .null, _, rest => .null rest
  | .bool true, _, rest => .boolTrue rest
  | .bool false, _, rest => .boolFalse rest
  | .number n, h, rest => .number rest (numeral_render h)
  | .string s, _, rest => spells_quote s false rest
  | .array [], _, rest => .array (.close (.nil _))
  | .array (v :: vs), h, rest => by
    have hitems := spellsSome_render (v :: vs) (by simp) h rest
    simpa [render] using Spells.array (.some hitems)
  | .object [], _, rest => .object (.close (.nil _))
  | .object (m :: ms), h, rest => by
    have hmembers := spellsFields_render (m :: ms) (by simp) h rest
    simpa [render] using Spells.object (.some hmembers)

theorem spellsSome_render : (items : List Json) → items ≠ [] →
    AllNumbersItems Number.IsWhole items → (rest : List Char) →
    SpellsSome false ((renderItems items).toList ++ ']' :: rest) items rest
  | [v], _, h, rest => .last (.nil _) (spells_render v h.1 _) (.nil _)
  | v :: w :: vs, _, h, rest => by
    have hmore := SpellsSome.more (.nil _) (spells_render v h.1 _) (.nil _)
      (spellsSome_render (w :: vs) (by simp) h.2 rest)
    simpa [renderItems] using hmore

theorem spellsFields_render : (members : List (String × Json)) → members ≠ [] →
    AllNumbersMembers Number.IsWhole members → (rest : List Char) →
    SpellsFields false ((renderMembers members).toList ++ '\x7d' :: rest) members rest
  | [(k, v)], _, h, rest => by
    have hlast := SpellsFields.last (spellsField_quote k (spells_render v h.1 _))
      (.nil ('\x7d' :: rest))
    simpa [renderMembers] using hlast
  | (k, v) :: m :: ms, _, h, rest => by
    have hmore := SpellsFields.more (spellsField_quote k (spells_render v h.1 _)) (.nil _)
      (spellsFields_render (m :: ms) (by simp) h.2 rest)
    simpa [renderMembers] using hmore
end

end SchemaCompiler.Json
