import SchemaCompiler.Proofs.Json.Reading
import SchemaCompiler.Proofs.TypeDefinition.Scan

/-!
# Places in a text

A program knows a place in a text by the number of bytes in front of it. Here the operations that
are given such a number are told by what follows the place: looking for a token, and the routines
that read from a place on.
-/
namespace SchemaCompiler

namespace Text

variable {cs rest : List Char} {v : Json}

theorem exists_byteLength_cons (c : Char) (cs : List Char) : ∃ k, byteLength (c :: cs) = k + 1 ∧
    c.utf8Size ≤ k + 1 ∧ k + 1 - c.utf8Size = byteLength cs := by
  have hc := c.utf8Size_pos
  exact ⟨c.utf8Size + byteLength cs - 1, by rw [byteLength_cons]; omega, by omega, by omega⟩

theorem dropBytes?_append (first rest : List Char) :
    dropBytes? (byteLength first) (first ++ rest) = some rest := by
  induction first with
  | nil => cases rest <;> rfl
  | cons c cs ih =>
    obtain ⟨k, hk, hle, hsub⟩ := exists_byteLength_cons c cs
    rw [hk, List.cons_append, dropBytes?, if_pos hle, hsub, ih]

theorem takeBytes?_append (first rest : List Char) :
    takeBytes? (byteLength first) (first ++ rest) = some first := by
  induction first with
  | nil => cases rest <;> rfl
  | cons c cs ih =>
    obtain ⟨k, hk, hle, hsub⟩ := exists_byteLength_cons c cs
    rw [hk, List.cons_append, takeBytes?, if_pos hle, hsub, ih]
    rfl

theorem prefix_of_takeBytes? {n : Nat} {piece : List Char} (h : takeBytes? n cs = some piece) :
    piece <+: cs := by
  induction cs generalizing n piece with
  | nil =>
    cases n with
    | zero => cases h; exact List.nil_prefix
    | succ n => cases h
  | cons c cs ih =>
    cases n with
    | zero => cases h; exact List.nil_prefix
    | succ n =>
      simp only [takeBytes?] at h
      split at h
      · obtain ⟨tail, htail, rfl⟩ := Option.map_eq_some_iff.1 h
        exact List.prefix_cons_inj c |>.2 (ih htail)
      · cases h

end Text

namespace Machine

open Text

variable {text : String} {before cs : List Char}

/-- The piece of a text behind a place is a token exactly if the token stands there. -/
theorem slice_eq_iff (h : text.toList = before ++ cs) {token : String} (htoken : token ≠ "") :
    slice (.string text) (byteLength before) token.utf8ByteSize = token ↔ token.toList <+: cs := by
  simp only [slice, h, dropBytes?_append, Option.bind_some]
  constructor
  · intro heq
    split at heq
    · rename_i piece hpiece
      rw [← heq, String.toList_ofList]
      exact prefix_of_takeBytes? hpiece
    · exact absurd heq.symm htoken
  · rintro ⟨tail, rfl⟩
    rw [← byteLength_toList, takeBytes?_append]
    exact String.ofList_toList

theorem binary_add_ofNat {m n : Nat} (h : m + n ≤ recordLimit) :
    binary .add (Json.ofNat m) (Json.ofNat n) = .ok (Json.ofNat (m + n)) := by
  have hsigned : ∀ k : Nat, k ≤ recordLimit → signed? (Json.ofNat k) = some (k : Int) := by
    intro k hk
    have hle : Json.minSigned ≤ k ∧ k ≤ Json.maxSigned := by
      simp only [Json.minSigned, Json.maxSigned, recordLimit] at *
      omega
    simp [signed?, Json.ofNat, Json.number?, Json.Number.signed?, hle]
  have hsum : Json.minSigned ≤ m + n ∧ m + n ≤ Json.maxSigned := by
    simp only [Json.minSigned, Json.maxSigned, recordLimit] at *
    omega
  simp only [binary, exact, hsigned m (by omega),
    hsigned n (by omega), hsum]
  rfl

end Machine

namespace Primitive

open Text

variable {text : String} {before cs : List Char}

theorem textAt_place (text : String) (n : Nat) (more : List Json) :
    textAt (.string text :: Json.ofNat n :: more) = .ok (text.toList, n) := by
  simp [textAt, Json.unsigned?, Json.ofNat, Json.number?, Json.Number.unsigned?]

theorem byteLength_of_isBlank (h : ∀ c ∈ cs, Json.isBlank c = true) :
    byteLength cs = cs.length := by
  induction cs with
  | nil => rfl
  | cons c cs ih =>
    have hc : c.utf8Size = 1 := by
      have hblank := h c (by simp)
      simp only [Json.isBlank, Bool.or_eq_true, beq_iff_eq] at hblank
      rcases hblank with ((rfl | rfl) | rfl) | rfl <;> decide
    rw [byteLength_cons, hc, ih fun c hc => h c (by simp [hc]), List.length_cons, Nat.add_comm]

theorem call_skipWhitespace (h : text.toList = before ++ cs) :
    ∃ after, text.toList = after ++ Json.skipBlank cs ∧
      skipWhitespace.call [.string text, Json.ofNat (byteLength before)] =
        .ok (Json.ofNat (byteLength after)) := by
  have hblanks : byteLength _ = (cs.takeWhile Json.isBlank).length :=
    byteLength_of_isBlank (List.all_eq_true.1 List.all_takeWhile)
  refine ⟨before ++ cs.takeWhile Json.isBlank, ?_, ?_⟩
  · rw [h, Json.skipBlank, List.append_assoc, List.takeWhile_append_dropWhile]
  · have hcount : blanksAt text.toList (byteLength before) = (cs.takeWhile Json.isBlank).length := by
      simp [blanksAt, h, dropBytes?_append]
    simp only [call, textAt_place, bind, Except.bind, hcount, byteLength_append, hblanks]
    rfl

def Complains (text : String) (v : Json) : Prop :=
  ∃ message n, n ≤ text.utf8ByteSize ∧ v = complaint message n

theorem byteLength_add (h : text.toList = before ++ cs) :
    byteLength before + byteLength cs = text.utf8ByteSize := by
  rw [← byteLength_toList, h, byteLength_append]

theorem valueAt_place (h : text.toList = before ++ cs) :
    match (Json.readNext cs).toOption with
    | some (v, rest) => ∃ after, text.toList = after ++ rest ∧ rest.length ≤ cs.length ∧
        valueAt text.toList (byteLength before) = .ok (.array [v, Json.ofNat (byteLength after)])
    | none => ∃ e, Complains text e ∧ valueAt text.toList (byteLength before) = .error e := by
  have hsize := byteLength_add h
  simp only [valueAt, h, dropBytes?_append, Option.getD_some]
  cases hread : Json.readNext cs with
  | ok read =>
    obtain ⟨piece, rfl⟩ := Json.suffix_of_readNext hread
    refine ⟨before ++ piece, by simp, by simp, ?_⟩
    simp [byteLength_append]
  | error fault =>
    dsimp only [Except.toOption]
    split
    · exact ⟨_, ⟨_, _, by rw [← h, byteLength_toList], rfl⟩, rfl⟩
    · refine ⟨_, ⟨_, _, ?_, rfl⟩, rfl⟩
      simp only [offsetOf]
      omega

theorem call_reader {routine : Primitive}
    (hr : routine = parseString ∨ routine = parseNumber ∨ routine = parseValue)
    (h : text.toList = before ++ cs) :
    match TypeDefinition.Scan.value routine cs with
    | some (v, rest) => ∃ after, text.toList = after ++ rest ∧ rest.length ≤ cs.length ∧
        routine.call [.string text, Json.ofNat (byteLength before)] =
          .ok (.array [v, Json.ofNat (byteLength after)])
    | none => ∃ e, Complains text e ∧
        routine.call [.string text, Json.ofNat (byteLength before)] = .error e := by
  have hchar : charAt text.toList (byteLength before) = cs.head? := by
    simp [charAt, h, dropBytes?_append]
  have hvalue := valueAt_place h
  have hhere : ∀ message, Complains text (complaint message (byteLength before)) := fun message =>
    ⟨message, _, by have := byteLength_add h; omega, rfl⟩
  rcases hr with rfl | rfl | rfl
  · simp only [call, textAt_place, TypeDefinition.Scan.value, TypeDefinition.Scan.opens]
    by_cases hc : cs.head? = some '"'
    · simpa [hc, hchar, bind, Except.bind] using hvalue
    · simpa [hc, hchar, bind, Except.bind] using hhere _
  · simp only [call, textAt_place, TypeDefinition.Scan.value, TypeDefinition.Scan.opens]
    cases cs with
    | nil => simpa [hchar, bind, Except.bind] using hhere _
    | cons c tail =>
      by_cases hd : c = '-' ∨ c.isDigit = true
      · simpa [hchar, hd, bind, Except.bind] using hvalue
      · simpa [hchar, hd, bind, Except.bind] using hhere _
  · simpa [call, textAt_place, TypeDefinition.Scan.value, TypeDefinition.Scan.opens, bind,
      Except.bind] using hvalue

end Primitive

namespace TypeDefinition.Scan

theorem letters_of_value (h : value .parseString cs = some (v, rest)) :
    ∃ tail s, cs = '"' :: tail ∧ v = .string (String.ofList s) ∧ Json.Letters tail s rest := by
  simp only [value, opens, beq_iff_eq] at h
  split at h
  · rename_i hc
    obtain ⟨tail, rfl⟩ := List.head?_eq_some_iff.1 hc
    cases hread : Json.readNext ('"' :: tail) with
    | error fault => simp [hread, Except.toOption] at h
    | ok read =>
      simp only [hread, Except.toOption, Option.some.injEq] at h
      subst h
      obtain ⟨s, rfl, hs⟩ := Json.exists_string_of_readNext hread
      exact ⟨tail, s, rfl, rfl, hs⟩
  · cases h

theorem numeral_of_value (h : value .parseNumber cs = some (v, rest)) :
    ∃ w n, cs = w ++ rest ∧ v = .number n ∧ Json.Numeral w n := by
  cases cs with
  | nil => simp [value, opens] at h
  | cons c tail =>
    by_cases hc : c = '-' ∨ c.isDigit = true
    · cases hread : Json.readNext (c :: tail) with
      | error fault => simp [value, hread, Except.toOption] at h
      | ok read =>
        simp only [value, opens, List.head?_cons, Option.any_some, Bool.or_eq_true, beq_iff_eq, hc,
          if_true, hread, Except.toOption, Option.some.injEq] at h
        subst h
        obtain ⟨n, w, rfl, hw, hn⟩ := Json.exists_number_of_readNext hc hread
        exact ⟨w, n, hw, rfl, hn⟩
    · simp [value, opens, hc] at h

end TypeDefinition.Scan
end SchemaCompiler
