import SchemaCompiler.Proofs.Url.Text

/-!
# Texts behind percent signs

The bytes of a text are decoded to the text, whichever of them are written behind percent signs.
-/
namespace SchemaCompiler

namespace Text.Utf8

variable {b k need value low high : Nat} {rest : List UInt8}

theorem decodeFrom_lead (hb : 0x80 ≤ b) (hlt : b < 256)
    (h : lead b = some (need, value, low, high)) :
    decodeFrom 0 0 0 0 (UInt8.ofNat b :: rest) = decodeFrom need value low high rest := by
  have hn : (UInt8.ofNat b).toNat = b := by simpa using hlt
  rw [decodeFrom]
  simp [hn, Nat.not_lt.2 hb, h]

theorem decodeFrom_next (hk : k < 64) (hlow : low ≤ k + 128) (hhigh : k + 128 ≤ high) :
    decodeFrom (need + 1) value low high (UInt8.ofNat (k + 128) :: rest) =
      if need = 0 then Char.ofNat (value * 64 + k) :: decodeFrom 0 0 0 0 rest
      else decodeFrom need (value * 64 + k) 0x80 0xBF rest := by
  have hn : (UInt8.ofNat (k + 128)).toNat = k + 128 := by
    rw [UInt8.toNat_ofNat']
    omega
  rw [decodeFrom]
  simp only [hn, Nat.add_sub_cancel, Nat.succ_ne_zero, if_false, hlow, hhigh, and_self, if_true,
    Nat.add_eq_right]

/-- A character in front of other bytes is read back. -/
theorem decodeFrom_encodeChar (c : Char) (rest : List UInt8) :
    decodeFrom 0 0 0 0 (String.utf8EncodeChar c ++ rest) = c :: decodeFrom 0 0 0 0 rest := by
  obtain ⟨v, hv⟩ : ∃ v, c.toNat = v := ⟨_, rfl⟩
  have hval : c.val.toNat = v := hv
  have hvalid : v < 0xD800 ∨ 0xDFFF < v ∧ v < 0x110000 := hv ▸ c.valid
  have hread : ∀ n, n = v → Char.ofNat n = c := by
    rintro n rfl
    rw [← hv, Char.ofNat_toNat]
  simp only [String.utf8EncodeChar, hval]
  split
  · rw [List.singleton_append, decodeFrom]
    have hn : (UInt8.ofNat v).toNat = v := by
      rw [UInt8.toNat_ofNat']
      omega
    simp [hn, if_pos (show v < 128 by omega), hread v rfl]
  split
  · have hlead : lead (v / 64 % 32 + 192) = some (1, v / 64, 0x80, 0xBF) := by
      rw [lead, if_pos (by omega)]
      simp
      omega
    simp only [List.cons_append, List.nil_append]
    rw [decodeFrom_lead (by omega) (by omega) hlead,
      decodeFrom_next (by omega) (by omega) (by omega), if_pos rfl, hread _ (by omega)]
  split
  · obtain ⟨low, high, hlead, hlow, hhigh⟩ : ∃ low high,
        lead (v / 4096 % 16 + 224) = some (2, v / 4096, low, high) ∧ low ≤ v / 64 % 64 + 128 ∧
          v / 64 % 64 + 128 ≤ high := by
      unfold lead
      split_ifs <;> simp [and_assoc] <;> omega
    simp only [List.cons_append, List.nil_append]
    rw [decodeFrom_lead (by omega) (by omega) hlead, decodeFrom_next (by omega) hlow hhigh,
      if_neg (by decide), decodeFrom_next (by omega) (by omega) (by omega), if_pos rfl,
      hread _ (by omega)]
  · obtain ⟨low, high, hlead, hlow, hhigh⟩ : ∃ low high,
        lead (v / 262144 % 8 + 240) = some (3, v / 262144, low, high) ∧
          low ≤ v / 4096 % 64 + 128 ∧ v / 4096 % 64 + 128 ≤ high := by
      unfold lead
      split_ifs <;> simp [and_assoc] <;> omega
    simp only [List.cons_append, List.nil_append]
    rw [decodeFrom_lead (by omega) (by omega) hlead, decodeFrom_next (by omega) hlow hhigh,
      if_neg (by decide), decodeFrom_next (by omega) (by omega) (by omega), if_neg (by decide),
      decodeFrom_next (by omega) (by omega) (by omega), if_pos rfl, hread _ (by omega)]

theorem decodeLossy_encode (cs : List Char) : decodeLossy (encode cs) = cs := by
  induction cs with
  | nil => rfl
  | cons c cs ih =>
    rw [encode, List.flatMap_cons, decodeLossy, decodeFrom_encodeChar]
    exact congrArg _ ih

end Text.Utf8

namespace Url

open Text (hexValue?)

/-- A text stands for bytes in which each character is itself, unless it is a percent sign, and a
percent sign stands with the two digits of a byte, in either case. -/
inductive Encodes : List Char → List UInt8 → Prop
  | nil : Encodes [] []
  | plain {c : Char} {cs : List Char} {bytes : List UInt8} (hc : c ≠ '%') (h : Encodes cs bytes) :
      Encodes (c :: cs) (String.utf8EncodeChar c ++ bytes)
  | escaped {a b : Char} {cs : List Char} {bytes : List UInt8} (byte : UInt8)
      (ha : hexValue? a = some (byte.toNat / 16)) (hb : hexValue? b = some (byte.toNat % 16))
      (h : Encodes cs bytes) : Encodes ('%' :: a :: b :: cs) (byte :: bytes)

variable {cs : List Char} {bytes : List UInt8} {s t : String}

theorem decodeBytes_of_encodes (h : Encodes cs bytes) : decodeBytes cs = bytes := by
  induction h with
  | nil => rfl
  | plain hc _ ih =>
    rw [decodeBytes, ih]
    rintro _ _ _ rfl
    exact absurd rfl hc
  | escaped byte ha hb _ ih =>
    have hbyte : byte.toNat / 16 * 16 + byte.toNat % 16 = byte.toNat := by omega
    simp [decodeBytes, ha, hb, ih, hbyte]

theorem decode_of_encodes (h : Encodes t.toList (Text.Utf8.encode s.toList)) : decode t = s := by
  rw [decode, decodeBytes_of_encodes h, Text.Utf8.decodeLossy_encode, String.ofList_toList]

theorem encodes_self (h : ∀ c ∈ cs, c ≠ '%') : Encodes cs (Text.Utf8.encode cs) := by
  induction cs with
  | nil => exact .nil
  | cons c cs ih => exact .plain (h c (by simp)) (ih fun x hx => h x (by simp [hx]))

theorem encodes_percentByte (h : Encodes cs bytes) (more : List UInt8) :
    Encodes (more.flatMap percentByte ++ cs) (more ++ bytes) := by
  have hdigit : ∀ n < 16, hexValue? (upperDigit n) = some n := by decide
  induction more with
  | nil => exact h
  | cons byte more ih =>
    have := byte.toNat_lt
    exact .escaped byte (hdigit _ (by omega)) (hdigit _ (by omega)) ih

theorem hexValue?_of_inFragmentSet {c : Char} (h : inFragmentSet c = true) :
    hexValue? c = none := by
  by_cases hc : c.toNat < 128
  · exact forall_ascii (p := fun c => inFragmentSet c = true → hexValue? c = none) (by decide) c
      hc h
  · have hle : ∀ d : Char, d.toNat < 128 → ¬ c ≤ d := fun d hd hle =>
      hc (Nat.lt_of_le_of_lt (UInt32.le_iff_toNat_le.1 hle) hd)
    simpa [hexValue?, Char.isDigit, hle] using fun _ => UInt32.not_le.1 (hle '9' (by decide))

/-- What is encoded further stands for the same bytes. -/
theorem Encodes.encode (h : Encodes cs bytes) : Encodes (encode inFragmentSet cs) bytes := by
  induction h with
  | nil => exact .nil
  | @plain c _ _ hc _ ih =>
    rw [encode_cons]
    split
    · exact encodes_percentByte ih _
    · exact .plain hc ih
  | escaped byte ha hb _ ih =>
    rw [encode_cons, encode_cons, encode_cons, if_neg (by decide),
      if_neg fun h => by simp [hexValue?_of_inFragmentSet h] at ha,
      if_neg fun h => by simp [hexValue?_of_inFragmentSet h] at hb]
    exact .escaped byte ha hb ih

end Url
end SchemaCompiler
