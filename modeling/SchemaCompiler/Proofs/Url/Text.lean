import Mathlib.Data.List.TakeWhile
import SchemaCompiler.Url.Reader

/-!
# Paths and queries as they are written

What is encoded has no characters left that are encoded, so that it stays as it is when it is read
again; and the segments that are followed have no dots left to follow.
-/
namespace SchemaCompiler.Url

variable {scheme : String} {c mark x : Char} {cs a b s rest : List Char}
  {parts ps : List (List Char)} {inSet stop : Char → Bool} {p : Char → Prop}

theorem forall_ascii (h : ∀ n : Fin 128, p (Char.ofNat n)) (c : Char) (hc : c.toNat < 128) :
    p c := by
  have hn := h ⟨c.toNat, hc⟩
  rwa [Char.ofNat_toNat] at hn

/-- What holds of each character of ASCII outside a set holds outside it, if all others are in it. -/
theorem of_not_inSet (hcontrol : ∀ c, isControl c = true → inSet c = true)
    (h : ∀ n : Fin 128, inSet (Char.ofNat n) = false → p (Char.ofNat n)) :
    ∀ c, inSet c = false → p c := by
  intro c hc
  refine forall_ascii (p := fun c => inSet c = false → p c) h c ?_ hc
  by_contra hge
  rw [hcontrol c (by simp [isControl, show 0x7F ≤ c.toNat by omega])] at hc
  cases hc

theorem encode_cons (inSet : Char → Bool) (c : Char) (cs : List Char) : encode inSet (c :: cs) =
    (if inSet c then (String.utf8EncodeChar c).flatMap percentByte else [c]) ++ encode inSet cs :=
  rfl

theorem encode_eq_self (h : ∀ c ∈ cs, inSet c = false) : encode inSet cs = cs := by
  induction cs with
  | nil => rfl
  | cons c cs ih =>
    rw [encode_cons, h c (by simp), ih fun x hx => h x (by simp [hx])]
    rfl

theorem forall_mem_encode (hp : p '%' ∧ ∀ n : Fin 16, p (upperDigit n))
    (h : ∀ c ∈ cs, inSet c = false → p c) : ∀ c ∈ encode inSet cs, p c := by
  intro c hc
  obtain ⟨x, hx, hc⟩ := List.mem_flatMap.1 hc
  split at hc
  · obtain ⟨byte, -, hc⟩ := List.mem_flatMap.1 hc
    have hlt : byte.toNat < 256 := byte.toNat_lt
    simp only [percentByte, List.mem_cons, List.not_mem_nil, or_false] at hc
    rcases hc with rfl | rfl | rfl
    · exact hp.1
    · exact hp.2 ⟨byte.toNat / 16, by omega⟩
    · exact hp.2 ⟨byte.toNat % 16, by omega⟩
  · rename_i hset
    rw [List.mem_singleton.1 hc]
    exact h x hx (by simpa using hset)

/-- A character that is encoded starts with a percent sign and the digits of a byte, which is the
character if it is one of ASCII. -/
theorem exists_percent (c : Char) : ∃ (byte : Fin 256) (rest : List Char),
    (String.utf8EncodeChar c).flatMap percentByte =
      '%' :: upperDigit (byte / 16) :: upperDigit (byte % 16) :: rest ∧
    (byte.val < 128 → byte.val = c.toNat) := by
  have hbyte : ∃ byte bytes, String.utf8EncodeChar c = byte :: bytes ∧
      (byte.toNat < 128 → byte.toNat = c.toNat) := by
    have hc : c.val.toNat = c.toNat := rfl
    simp only [String.utf8EncodeChar]
    split
    · exact ⟨_, _, rfl, by simp; omega⟩
    · split
      · exact ⟨_, _, rfl, by simp; omega⟩
      · split <;> exact ⟨_, _, rfl, by simp; omega⟩
  obtain ⟨byte, bytes, hc, hlt⟩ := hbyte
  exact ⟨⟨byte.toNat, byte.toNat_lt⟩, bytes.flatMap percentByte, by rw [hc]; rfl, hlt⟩

theorem encode_eq_nil (h : encode inSet cs = []) : cs = [] := by
  cases cs with
  | nil => rfl
  | cons c cs =>
    obtain ⟨byte, rest, hc, -⟩ := exists_percent c
    rw [encode_cons, hc] at h
    split at h <;> simp at h

theorem head?_encode (hx : x ≠ '%') (h : (encode inSet cs).head? = some x) : cs.head? = some x := by
  cases cs with
  | nil => exact h
  | cons c cs =>
    obtain ⟨byte, rest, hc, -⟩ := exists_percent c
    rw [encode_cons, hc] at h
    split at h
    · exact absurd (Option.some.inj h).symm hx
    · exact h

/-! ## Parts of a text -/

theorem upTo_append (ha : ∀ c ∈ a, stop c = false) (hb : ∀ c ∈ b.head?, stop c = true) :
    upTo stop (a ++ b) = (a, b) := by
  have ha' : ∀ c ∈ a, (!stop c) = true := by simpa using ha
  rw [upTo, List.takeWhile_append_of_pos ha', List.dropWhile_append_of_pos ha']
  cases b with
  | nil => simp
  | cons c b => simp [hb c rfl]

theorem upTo_eq_self (ha : ∀ c ∈ a, stop c = false) : upTo stop a = (a, []) := by
  simpa using upTo_append (b := []) ha (by simp)

theorem upTo_spec (stop : Char → Bool) (cs : List Char) :
    (∀ c ∈ (upTo stop cs).1, stop c = false) ∧ (upTo stop cs).1 <+: cs ∧ (upTo stop cs).2 <:+ cs :=
  ⟨fun c hc => by simpa using List.mem_takeWhile_imp hc, List.takeWhile_prefix _,
    List.dropWhile_suffix _⟩

def IsPathText (cs : List Char) : Prop := ∀ c ∈ cs, c ≠ '?' ∧ c ≠ '#'

def IsQuery (scheme : String) (query : Option (List Char)) : Prop :=
  ∀ q ∈ query, ∀ c ∈ q, inQuerySet (isSpecial scheme) c = false

theorem splitQuery_spec (scheme : String) (cs : List Char) :
    (splitQuery scheme cs).1 <+: cs ∧ IsPathText (splitQuery scheme cs).1 ∧
      IsQuery scheme (splitQuery scheme cs).2.1 := by
  obtain ⟨hfront, hbegin, -⟩ := upTo_spec (· == '#') cs
  have hfragment : (splitFragment cs).1 = (upTo (· == '#') cs).1 := by
    unfold splitFragment
    split <;> simp_all
  obtain ⟨hpath, hbegin', -⟩ := upTo_spec (· == '?') (splitFragment cs).1
  have hall : (upTo (· == '?') (splitFragment cs).1).1 <+: cs ∧
      IsPathText (upTo (· == '?') (splitFragment cs).1).1 := by
    rw [hfragment] at hpath hbegin' ⊢
    refine ⟨hbegin'.trans hbegin, fun c hc => ⟨?_, ?_⟩⟩
    · simpa using hpath c hc
    · simpa using hfront c (hbegin'.subset hc)
  simp only [splitQuery]
  split
  · rename_i path mark query hsplit
    rw [hsplit] at hall
    refine ⟨hall.1, hall.2, ?_⟩
    rintro _ ⟨⟩ c hc
    refine forall_mem_encode ?_
      (fun c _ h => h) c hc
    cases isSpecial scheme <;> decide
  · rename_i path hsplit
    rw [hsplit] at hall
    exact ⟨hall.1, hall.2, nofun⟩

theorem splitOn_ne_nil (mark : Char) (cs : List Char) : splitOn mark cs ≠ [] := by
  cases cs with
  | nil => simp [splitOn]
  | cons c cs =>
    rw [splitOn]
    split
    · simp
    · split <;> simp

theorem of_mem_splitOn (hs : s ∈ splitOn mark cs) : ∀ c ∈ s, c ∈ cs ∧ c ≠ mark := by
  induction cs generalizing s with
  | nil => simp_all [splitOn]
  | cons x cs ih =>
    rw [splitOn] at hs
    split at hs
    · rcases List.mem_cons.1 hs with rfl | hs
      · simp
      · exact fun c hc => ⟨List.mem_cons_of_mem _ (ih hs c hc).1, (ih hs c hc).2⟩
    · split at hs
      · exact absurd ‹_› (splitOn_ne_nil mark cs)
      · rename_i hx _ part rest hsplit
        rcases List.mem_cons.1 hs with rfl | hs
        · intro c hc
          rcases List.mem_cons.1 hc with rfl | hc
          · exact ⟨List.mem_cons_self, hx⟩
          · have := ih (hsplit ▸ List.mem_cons_self) c hc
            exact ⟨List.mem_cons_of_mem _ this.1, this.2⟩
        · have := fun c hc => ih (hsplit ▸ List.mem_cons_of_mem _ hs) c hc
          exact fun c hc => ⟨List.mem_cons_of_mem _ (this c hc).1, (this c hc).2⟩

theorem splitOn_append (ha : ∀ c ∈ a, c ≠ mark) (b : List Char) :
    splitOn mark (a ++ mark :: b) = a :: splitOn mark b := by
  induction a with
  | nil => simp [splitOn]
  | cons c a ih =>
    rw [List.cons_append, splitOn, if_neg (ha c (by simp)), ih fun x hx => ha x (by simp [hx])]

theorem splitOn_eq_self (ha : ∀ c ∈ a, c ≠ mark) : splitOn mark a = [a] := by
  induction a with
  | nil => rfl
  | cons c a ih => rw [splitOn, if_neg (ha c (by simp)), ih fun x hx => ha x (by simp [hx])]

/-- A segment that stays as it is when it is followed. -/
structure IsSegment (scheme : String) (s : List Char) : Prop where
  char : ∀ c ∈ s, inPathSet c = false ∧ isSlash scheme c = false
  single : isSingleDot s = false
  double : isDoubleDot s = false

theorem isSegment_nil : IsSegment scheme [] := ⟨by simp, rfl, rfl⟩

theorem lower_cons (hx : x ≠ '%') (h : (encode inSet cs).map Char.toLower = x :: rest) : ∃ cs',
      cs.map Char.toLower = x :: cs'.map Char.toLower ∧ (encode inSet cs').map Char.toLower = rest := by
  cases cs with
  | nil => simp [encode] at h
  | cons c cs =>
    obtain ⟨byte, tail, hc, -⟩ := exists_percent c
    rw [encode_cons, hc] at h
    split at h
    · exact absurd (List.cons.inj h).1.symm hx
    · obtain ⟨rfl, hrest⟩ := List.cons.inj h
      exact ⟨cs, rfl, hrest⟩

theorem lower_percent (hdot : inSet '.' = false)
    (h : (encode inSet cs).map Char.toLower = '%' :: '2' :: 'e' :: rest) : ∃ cs',
      cs.map Char.toLower = '%' :: '2' :: 'e' :: cs'.map Char.toLower ∧
        (encode inSet cs').map Char.toLower = rest := by
  cases cs with
  | nil => simp [encode] at h
  | cons c cs =>
    obtain ⟨byte, tail, hc, hbyte⟩ := exists_percent c
    rw [encode_cons, hc] at h
    split at h
    · -- the byte would be that of a dot
      rename_i hset
      simp only [List.cons_append, List.map_cons, List.cons.injEq] at h
      have hdigits : ∀ n : Fin 256, (upperDigit (n / 16)).toLower = '2' →
          (upperDigit (n % 16)).toLower = 'e' → n = 46 := by decide +kernel
      obtain rfl := hdigits byte h.2.1 h.2.2.1
      have hc : c = '.' := Char.ext (UInt32.toNat_inj.1 (hbyte (by decide)).symm)
      rw [hc, hdot] at hset
      cases hset
    · obtain ⟨hfirst, hrest⟩ := List.cons.inj h
      obtain ⟨cs₁, h₁, hrest⟩ := lower_cons (by decide) hrest
      obtain ⟨cs₂, h₂, hrest⟩ := lower_cons (by decide) hrest
      exact ⟨cs₂, by rw [List.map_cons, hfirst, h₁, h₂], hrest⟩

theorem lower_nil (h : (encode inSet cs).map Char.toLower = []) : cs.map Char.toLower = [] := by
  rw [encode_eq_nil (List.map_eq_nil_iff.1 h), List.map_nil]

theorem isSingleDot_encode (hdot : inSet '.' = false) (h : isSingleDot s = false) :
    isSingleDot (encode inSet s) = false := by
  by_contra hne
  simp only [isSingleDot, Bool.not_eq_false, Bool.or_eq_true, beq_iff_eq] at hne
  rcases hne with hne | hne
  · obtain ⟨cs, hs, hcs⟩ := lower_cons (by decide) hne
    simp [isSingleDot, hs, lower_nil hcs] at h
  · obtain ⟨cs, hs, hcs⟩ := lower_percent hdot hne
    simp [isSingleDot, hs, lower_nil hcs] at h

theorem isDoubleDot_encode (hdot : inSet '.' = false) (h : isDoubleDot s = false) :
    isDoubleDot (encode inSet s) = false := by
  by_contra hne
  simp only [isDoubleDot, Bool.not_eq_false, Bool.or_eq_true, beq_iff_eq] at hne
  rcases hne with ((hne | hne) | hne) | hne
  · obtain ⟨cs, hs, hne⟩ := lower_cons (by decide) hne
    obtain ⟨cs', hs', hcs⟩ := lower_cons (by decide) hne
    simp [isDoubleDot, hs, hs', lower_nil hcs] at h
  · obtain ⟨cs, hs, hne⟩ := lower_cons (by decide) hne
    obtain ⟨cs', hs', hcs⟩ := lower_percent hdot hne
    simp [isDoubleDot, hs, hs', lower_nil hcs] at h
  · obtain ⟨cs, hs, hne⟩ := lower_percent hdot hne
    obtain ⟨cs', hs', hcs⟩ := lower_cons (by decide) hne
    simp [isDoubleDot, hs, hs', lower_nil hcs] at h
  · obtain ⟨cs, hs, hne⟩ := lower_percent hdot hne
    obtain ⟨cs', hs', hcs⟩ := lower_percent hdot hne
    simp [isDoubleDot, hs, hs', lower_nil hcs] at h

theorem isSegment_encode (h : ∀ c ∈ s, isSlash scheme c = false) (hsingle : isSingleDot s = false)
    (hdouble : isDoubleDot s = false) : IsSegment scheme (encode inPathSet s) := by
  refine ⟨forall_mem_encode ⟨⟨by decide, ?_⟩, fun n => ⟨?_, ?_⟩⟩ fun c hc hset => ⟨hset, h c hc⟩,
    isSingleDot_encode (by decide) hsingle, isDoubleDot_encode (by decide) hdouble⟩
  · simp [isSlash]
  · revert n; decide
  · have hn : ∀ n : Fin 16, upperDigit n ≠ '/' ∧ upperDigit n ≠ '\\' := by decide
    simp [isSlash, hn n]

theorem isSegment_addSegments (hparts : ∀ s ∈ parts, IsSegment scheme s)
    (hps : ∀ s ∈ ps, ∀ c ∈ s, isSlash scheme c = false) :
    ∀ s ∈ addSegments parts ps, IsSegment scheme s := by
  have hdrop {parts : List (List Char)} (hparts : ∀ s ∈ parts, IsSegment scheme s) :
      ∀ s ∈ parts.dropLast, IsSegment scheme s :=
    fun s hs => hparts s (List.dropLast_subset _ hs)
  have hsnoc {parts : List (List Char)} (hparts : ∀ s ∈ parts, IsSegment scheme s) {s : List Char}
      (hs : IsSegment scheme s) : ∀ t ∈ parts ++ [s], IsSegment scheme t := by
    intro t ht
    rcases List.mem_append.1 ht with ht | ht
    · exact hparts t ht
    · rwa [List.mem_singleton.1 ht]
  fun_induction addSegments parts ps with
  | case1 => exact hparts
  | case2 => exact hsnoc (hdrop hparts) isSegment_nil
  | case3 => exact hsnoc hparts isSegment_nil
  | case4 parts s hdouble hsingle =>
    exact hsnoc hparts (isSegment_encode (hps s (by simp)) (by simpa using hsingle)
      (by simpa using hdouble))
  | case5 parts s rest _ hdouble ih => exact ih (hdrop hparts) fun t ht => hps t (by simp [ht])
  | case6 parts s rest _ hdouble hsingle ih => exact ih hparts fun t ht => hps t (by simp [ht])
  | case7 parts s rest _ hdouble hsingle ih =>
    exact ih (hsnoc hparts (isSegment_encode (hps s (by simp)) (by simpa using hsingle)
      (by simpa using hdouble))) fun t ht => hps t (by simp [ht])

theorem addSegments_ne_nil (h : ps ≠ []) : addSegments parts ps ≠ [] := by
  fun_induction addSegments parts ps with
  | case1 => exact absurd rfl h
  | case2 => simp
  | case3 => simp
  | case4 => simp
  | case5 parts s rest hrest hdouble ih => exact ih (by simpa using hrest)
  | case6 parts s rest hrest hdouble hsingle ih => exact ih (by simpa using hrest)
  | case7 parts s rest hrest hdouble hsingle ih => exact ih (by simpa using hrest)

theorem isSlash_writtenSegments (hs : s ∈ writtenSegments scheme cs) :
    ∀ c ∈ s, isSlash scheme c = false := by
  intro c hc
  have hmem := of_mem_splitOn hs c hc
  cases hspecial : isSpecial scheme with
  | false => simpa [isSlash, hspecial] using hmem.2
  | true =>
    simp only [hspecial, if_true, List.mem_map] at hmem
    obtain ⟨⟨x, -, hx⟩, hslash⟩ := hmem
    have : c ≠ '\\' := by
      rintro rfl
      split at hx <;> simp_all
    simp [isSlash, hslash, this]

def IsPath (scheme : String) (segments : List (List Char)) : Prop :=
  ∀ s ∈ segments, IsSegment scheme s

theorem isPath_follow (hparts : IsPath scheme parts) (cs : List Char) :
    IsPath scheme (addSegments parts (writtenSegments scheme cs)) ∧
      addSegments parts (writtenSegments scheme cs) ≠ [] :=
  ⟨isSegment_addSegments hparts fun _ hs => isSlash_writtenSegments hs,
    addSegments_ne_nil (splitOn_ne_nil _ _)⟩

end SchemaCompiler.Url
