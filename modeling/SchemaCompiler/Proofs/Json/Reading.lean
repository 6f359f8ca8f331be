import SchemaCompiler.Proofs.Json.Numerals

/-!
# The reader and the grammar

The reader accepts exactly the texts of the grammar whose nesting is below its bound, and its draft
is the value as written. The fuel it is given, three steps for every character and three more, is
always enough.
-/
namespace SchemaCompiler.Json

variable {cs rest w ds s b es start : List Char} {ws : Bool} {members : List (String × Json)}
  {stop : Option Fault} {levels fuel : Nat} {items : List Json} {v x : Json} {c : Char} {d : Draft}
  {n : Number}

/-! ## Blanks -/

theorem Blanks.trans (h : Blanks ws cs ds) (h' : Blanks ws ds es) : Blanks ws cs es := by
  induction h with
  | nil => exact h'
  | cons hws hc _ ih => exact .cons hws hc (ih h')

theorem Blanks.mono (h : Blanks ws cs ds) : Blanks true cs ds := by
  induction h with
  | nil => exact .nil _
  | cons _ hc _ ih => exact .cons rfl hc ih

theorem Blanks.length_le (h : Blanks ws cs ds) : ds.length ≤ cs.length := by
  induction h with
  | nil => exact Nat.le_refl _
  | cons _ _ _ ih => simp; omega

def NoBlank (cs : List Char) : Prop := ∀ c ∈ cs.head?, isBlank c = false

@[simp] theorem noBlank_nil : NoBlank [] := by simp [NoBlank]

@[simp] theorem noBlank_cons (c : Char) (cs : List Char) :
    NoBlank (c :: cs) ↔ isBlank c = false := by simp [NoBlank]

theorem skipBlank_of_noBlank (h : NoBlank cs) : skipBlank cs = cs := by
  cases cs with
  | nil => rfl
  | cons c cs =>
    rw [noBlank_cons] at h
    simp [skipBlank, h]

theorem Blanks.skipBlank_eq (h : Blanks ws cs ds) : skipBlank cs = skipBlank ds := by
  induction h with
  | nil => rfl
  | cons _ hc _ ih => simpa [skipBlank, hc] using ih

theorem Blanks.skipBlank (h : Blanks ws cs ds) (hds : NoBlank ds) : skipBlank cs = ds := by
  rw [h.skipBlank_eq, skipBlank_of_noBlank hds]

theorem blanks_skipBlank (cs : List Char) : Blanks true cs (skipBlank cs) := by
  induction cs with
  | nil => exact .nil _
  | cons c cs ih =>
    by_cases hc : isBlank c = true
    · simpa [Json.skipBlank, hc] using Blanks.cons rfl hc ih
    · simpa [Json.skipBlank, hc] using Blanks.nil (c :: cs)

theorem blanks_of_skipBlank_eq (h : skipBlank cs = ds) : Blanks true cs ds :=
  h ▸ blanks_skipBlank cs

/-! ## Strings -/

theorem readChars_of_letters (h : Letters cs s rest) : readChars cs = .ok (s, rest) := by
  induction h with
  | close rest => rfl
  | plain hquote hslash hc _ ih =>
    rw [readChars.eq_def]
    simp [hslash, Nat.not_lt.mpr hc, ih, consChar]
  | @short c e cs s rest he _ ih =>
    have hu : c ≠ 'u' := by rintro rfl; simp [shortEscape?] at he
    rw [readChars.eq_def]
    simp [hu, he, ih, consChar]
  | @code a b c d n cs s rest hn hplain _ ih =>
    have hlow : ¬ (0xDC00 ≤ n ∧ n ≤ 0xDFFF) := by omega
    have hhigh : ¬ (0xD800 ≤ n ∧ n ≤ 0xDBFF) := by omega
    simp [readChars, hn, hlow, hhigh, ih, consChar]
  | @pair a b c d e f g k n m cs s rest hn hhigh hm hlow _ ih =>
    have hlow' : ¬ (0xDC00 ≤ n ∧ n ≤ 0xDFFF) := by omega
    simp [readChars, hn, hlow', hhigh, hm, hlow, ih, consChar]

theorem consChar_eq_ok {x : Step (List Char)}
    (h : consChar c x = .ok (s, rest)) : ∃ s', x = .ok (s', rest) ∧ s = c :: s' := by
  match x, h with
  | .ok (s', rest), h =>
    cases h
    exact ⟨s', rfl, rfl⟩

theorem letters_of_readChars (h : readChars cs = .ok (s, rest)) : Letters cs s rest := by
  fun_induction readChars cs generalizing s rest with
  | case2 rest => cases h; exact .close _
  | case6 a b c d n hn _ hhigh e f g k cs m hm hlow ih =>
    obtain ⟨s, hs, rfl⟩ := consChar_eq_ok h
    exact .pair hn hhigh hm hlow (ih hs)
  | case13 a b c d cs n hn hlow hhigh ih =>
    obtain ⟨s, hs, rfl⟩ := consChar_eq_ok h
    exact .code hn (by omega) (ih hs)
  | case16 c cs _ _ e he ih =>
    obtain ⟨s, hs, rfl⟩ := consChar_eq_ok h
    exact .short he (ih hs)
  | case19 c cs hquote _ _ hend hslash hc ih =>
    obtain ⟨s, hs, rfl⟩ := consChar_eq_ok h
    have hc' : c ≠ '\\' := by
      rintro rfl
      cases cs with
      | nil => exact hend rfl rfl
      | cons d cs => exact hslash d cs rfl rfl
    exact .plain hquote hc' (by omega) (ih hs)
  | _ => cases h

theorem Letters.length_lt (h : Letters cs s rest) : rest.length < cs.length := by
  induction h with
  | close => simp
  | plain _ _ _ _ ih => simp; omega
  | short _ _ ih => simp; omega
  | code _ _ _ ih => simp; omega
  | pair _ _ _ _ _ ih => simp; omega

theorem readString_of_letters (h : Letters cs s rest) :
    readString cs = .ok (String.ofList s, rest) := by
  simp [readString, readChars_of_letters h]

theorem letters_of_readString {k : String}
    (h : readString cs = .ok (k, rest)) : ∃ s, k = String.ofList s ∧ Letters cs s rest := by
  unfold readString at h
  split at h
  · rename_i s rest' hs
    cases h
    exact ⟨s, rfl, letters_of_readChars hs⟩
  · cases h

/-! ## Literals and numbers -/

theorem eq_append_of_readLiteral (h : readLiteral es cs = .ok rest) : cs = es ++ rest := by
  induction es generalizing cs with
  | nil => cases h; rfl
  | cons e es ih =>
    cases cs with
    | nil => cases h
    | cons c cs =>
      simp only [readLiteral] at h
      split at h
      · rename_i hc
        rw [ih h, hc, List.cons_append]
      · cases h

theorem Numeral.exists_cons (h : Numeral w n) :
    ∃ c cs, w = c :: cs ∧ (c = '-' ∨ c.isDigit = true) := by
  cases h with
  | unsigned h =>
    obtain ⟨whole, fraction, ex, rfl, ⟨⟨hne, hds⟩, -⟩, -⟩ := h
    cases whole with
    | nil => exact absurd rfl hne
    | cons d ds => exact ⟨d, ds ++ (fraction ++ ex), rfl, .inr (hds d (by simp))⟩
  | @negative cs _ _ => exact ⟨'-', cs, rfl, .inl rfl⟩

theorem isBlank_eq_false_of_isDigit (h : c.isDigit = true) : isBlank c = false := by
  cases hb : isBlank c with
  | false => rfl
  | true =>
    simp only [isBlank, Bool.or_eq_true, beq_iff_eq] at hb
    rcases hb with ((rfl | rfl) | rfl) | rfl <;> simp at h

theorem Spells.exists_cons (h : Spells ws cs v rest) :
    ∃ c tail, cs = c :: tail ∧ isBlank c = false ∧ c ≠ ']' := by
  cases h with
  | number _ hw =>
    obtain ⟨c, tail, rfl, hc⟩ := hw.exists_cons
    refine ⟨c, tail ++ rest, rfl, ?_⟩
    rcases hc with rfl | hc
    · decide
    · exact ⟨isBlank_eq_false_of_isDigit hc, by rintro rfl; simp at hc⟩
  | _ => exact ⟨_, _, rfl, rfl, by decide⟩

theorem Spells.noBlank (h : Spells ws cs v rest) : NoBlank cs := by
  obtain ⟨c, tail, rfl, hc, -⟩ := h.exists_cons
  simpa using hc

theorem Blanks.numberEnd (h : Blanks ws cs ds) (hds : NumberEnd ds) : NumberEnd cs := by
  cases h with
  | nil => exact hds
  | @cons c cs _ _ hc _ =>
    simp only [isBlank, Bool.or_eq_true, beq_iff_eq] at hc
    rcases hc with ((rfl | rfl) | rfl) | rfl <;> simp [NumberEnd]

/-! ### What a spelling takes from a text -/

def isSolid (c : Char) : Bool := !isBlank c && c != '"'

theorem isSolid_of_isDigit (h : c.isDigit = true) : isSolid c = true := by
  have hquote : c ≠ '"' := by
    rintro rfl
    simp at h
  simp [isSolid, isBlank_eq_false_of_isDigit h, hquote]

theorem IsUnsigned.isSolid (h : IsUnsigned w) : ∀ c ∈ w, Json.isSolid c = true := by
  obtain ⟨whole, fraction, exponent, rfl, ⟨⟨-, hwhole⟩, -⟩, hfraction, hexponent⟩ := h
  intro c hc
  simp only [List.mem_append] at hc
  rcases hc with hc | hc | hc
  · exact isSolid_of_isDigit (hwhole c hc)
  · rcases hfraction with rfl | ⟨ds, rfl, -, hds⟩
    · cases hc
    · rcases List.mem_cons.1 hc with rfl | hc
      · decide
      · exact isSolid_of_isDigit (hds c hc)
  · rcases hexponent with rfl | ⟨mark, sign, ds, rfl, hmark, hsign, -, hds⟩
    · cases hc
    · simp only [List.mem_cons, List.mem_append] at hc
      rcases hc with rfl | hc | hc
      · rcases hmark with rfl | rfl <;> decide
      · rcases hsign with rfl | rfl | rfl <;> simp at hc <;> subst hc <;> decide
      · exact isSolid_of_isDigit (hds c hc)

theorem Numeral.isSolid (h : Numeral w n) : ∀ c ∈ w, Json.isSolid c = true := by
  cases h with
  | unsigned h _ => exact h.isSolid
  | negative h _ =>
    intro c hc
    rcases List.mem_cons.1 hc with rfl | hc
    · decide
    · exact h.isSolid c hc

/-- A relation between a text and what is left of it which holds when a blank, where there are any,
a string or another character is taken from its front. -/
structure Consumes (ws : Bool) (R : List Char → List Char → Prop) : Prop where
  trans {cs ds es : List Char} : R cs ds → R ds es → R cs es
  blank {c : Char} (cs : List Char) : ws = true → isBlank c = true → R (c :: cs) cs
  solid {c : Char} (cs : List Char) : isSolid c = true → R (c :: cs) cs
  string {cs s rest : List Char} : Letters cs s rest → R ('"' :: cs) rest

section Consumes

variable {R : List Char → List Char → Prop}

theorem Consumes.word (hR : Consumes ws R) (hne : w ≠ [])
    (hw : ∀ c ∈ w, isSolid c = true) (rest : List Char) : R (w ++ rest) rest := by
  induction w with
  | nil => exact absurd rfl hne
  | cons c w ih =>
    have hc := hR.solid (w ++ rest) (hw c (by simp))
    cases w with
    | nil => exact hc
    | cons d w => exact hR.trans hc (ih (by simp) fun e he => hw e (by simp [he]))

theorem Blanks.consumed (hR : Consumes ws R) (hb : Blanks ws cs ds) (h : R ds rest) : R cs rest := by
  induction hb with
  | nil => exact h
  | cons hws hc _ ih => exact hR.trans (hR.blank _ hws hc) (ih h)

theorem Blanks.consumed_cons (hR : Consumes ws R) (hc : isSolid c = true)
    (hb : Blanks ws cs (c :: rest)) : R cs rest := hb.consumed hR (hR.solid rest hc)

mutual
theorem Spells.consumed (hR : Consumes ws R) {cs rest : List Char} {v : Json} :
    Spells ws cs v rest → R cs rest
  | .null rest => hR.word (w := ['n', 'u', 'l', 'l']) (by simp) (by simp [isSolid, isBlank]) rest
  | .boolTrue rest => hR.word (w := ['t', 'r', 'u', 'e']) (by simp) (by simp [isSolid, isBlank]) rest
  | .boolFalse rest => hR.word (w := ['f', 'a', 'l', 's', 'e']) (by simp) (by simp [isSolid, isBlank]) rest
  | .number rest h => by
    obtain ⟨c, tail, rfl, -⟩ := h.exists_cons
    exact hR.word (by simp) h.isSolid rest
  | .string h => hR.string h
  | .array h | .object h => hR.trans (hR.solid _ (by decide)) (h.consumed hR)

theorem SpellsItems.consumed (hR : Consumes ws R) {cs rest : List Char} {items : List Json} :
    SpellsItems ws cs items rest → R cs rest
  | .close h => h.consumed_cons hR (by decide)
  | .some h => h.consumed hR

theorem SpellsSome.consumed (hR : Consumes ws R) {cs rest : List Char} {items : List Json} :
    SpellsSome ws cs items rest → R cs rest
  | .last hb hv he =>
    hR.trans (hb.consumed hR (hv.consumed hR)) (he.consumed_cons hR (by decide))
  | .more hb hv hc h => hR.trans (hb.consumed hR (hv.consumed hR))
      (hR.trans (hc.consumed_cons hR (by decide)) (h.consumed hR))

theorem SpellsMembers.consumed (hR : Consumes ws R) {cs rest : List Char}
    {members : List (String × Json)} : SpellsMembers ws cs members rest → R cs rest
  | .close h => h.consumed_cons hR (by decide)
  | .some h => h.consumed hR

theorem SpellsFields.consumed (hR : Consumes ws R) {cs rest : List Char}
    {members : List (String × Json)} : SpellsFields ws cs members rest → R cs rest
  | .last hm he => hR.trans (hm.consumed hR) (he.consumed_cons hR (by decide))
  | .more hm hc h =>
    hR.trans (hm.consumed hR) (hR.trans (hc.consumed_cons hR (by decide)) (h.consumed hR))

theorem SpellsField.consumed (hR : Consumes ws R) {cs rest : List Char} {member : String × Json} :
    SpellsField ws cs member rest → R cs rest
  | .mk hb hk hc hs hv => hb.consumed hR (hR.trans (hR.string hk)
      (hR.trans (hc.consumed_cons hR (by decide)) (hs.consumed hR (hv.consumed hR))))
end

theorem Letters.suffix (h : Letters cs s rest) : rest <:+ cs := by
  induction h with
  | close => exact List.suffix_cons _ _
  | plain _ _ _ _ ih => exact ih.trans (List.suffix_cons _ _)
  | short _ _ ih => exact ih.trans ⟨['\\', _], rfl⟩
  | code _ _ _ ih => exact ih.trans ⟨['\\', 'u', _, _, _, _], rfl⟩
  | pair _ _ _ _ _ ih =>
    exact ih.trans ⟨['\\', 'u', _, _, _, _, '\\', 'u', _, _, _, _], rfl⟩

theorem consumes_suffix (ws : Bool) :
    Consumes ws fun cs rest => rest <:+ cs ∧ rest.length < cs.length where
  trans h h' := ⟨h'.1.trans h.1, Nat.lt_trans h'.2 h.2⟩
  blank cs _ _ := ⟨List.suffix_cons _ _, by simp⟩
  solid cs _ := ⟨List.suffix_cons _ _, by simp⟩
  string h := ⟨h.suffix.trans (List.suffix_cons _ _), Nat.lt_succ_of_lt h.length_lt⟩

theorem Spells.length_lt (h : Spells ws cs v rest) : rest.length < cs.length :=
  (h.consumed (consumes_suffix ws)).2

theorem SpellsField.length_lt {m : String × Json} (h : SpellsField ws cs m rest) :
    rest.length < cs.length :=
  (h.consumed (consumes_suffix ws)).2

end Consumes

/-! ## Reading what is spelled -/

theorem readValue_number (hb : skipBlank b = w ++ rest) (h : Numeral w n) (hrest : NumberEnd rest) :
    readValue (fuel + 1) levels b = (.number n, some rest) := by
  cases h with
  | unsigned hw hn =>
    obtain ⟨c, cs, rfl, hc⟩ := (Numeral.unsigned hw hn).exists_cons
    have hread := readNumber_append hw hn hrest
    rw [List.cons_append] at hb hread
    rw [readValue, hb]
    split <;> rename_i heq <;> cases heq <;> try simp at hc
    · simp [readNumber] at hread
    · have hdigit : c.isDigit = true := by
        rcases hc with rfl | hc
        · simp_all
        · exact hc
      rw [if_pos hdigit, hread]
      rfl
  | negative hw hn =>
    rw [readValue, hb]
    simp [readNumber_append hw hn hrest, scalar]

/-- What is left of a list: its end, or more parts, behind a comma unless they are the first. -/
inductive Left {α : Type} (ws first : Bool) (closing : Char)
    (parts : List Char → List α → List Char → Prop) : List Char → List α → List Char → Prop
  | close {cs rest : List Char} (h : Blanks ws cs (closing :: rest)) :
      Left ws first closing parts cs [] rest
  | parts {cs next rest : List Char} {xs : List α}
      (hb : Blanks ws cs (if first then next else ',' :: next)) (h : parts next xs rest) :
      Left ws first closing parts cs xs rest

theorem spellsSome_iff : SpellsSome ws cs items rest ↔ ∃ v more start stop, items = v :: more ∧
    Blanks ws cs start ∧ Spells ws start v stop ∧
      Left ws false ']' (SpellsSome ws) stop more rest := by
  constructor
  · rintro (⟨hb, hv, he⟩ | ⟨hb, hv, hc, h⟩)
    · exact ⟨_, _, _, _, rfl, hb, hv, .close he⟩
    · exact ⟨_, _, _, _, rfl, hb, hv, .parts hc h⟩
  · rintro ⟨v, more, start, stop, rfl, hb, hv, he | ⟨hc, h⟩⟩
    · exact .last hb hv he
    · exact .more hb hv hc h

theorem spellsFields_iff : SpellsFields ws cs members rest ↔ ∃ m more stop, members = m :: more ∧
    SpellsField ws cs m stop ∧ Left ws false '\x7d' (SpellsFields ws) stop more rest := by
  constructor
  · rintro (⟨hm, he⟩ | ⟨hm, hc, h⟩)
    · exact ⟨_, _, _, rfl, hm, .close he⟩
    · exact ⟨_, _, _, rfl, hm, .parts hc h⟩
  · rintro ⟨m, more, stop, rfl, hm, he | ⟨hc, h⟩⟩
    · exact .last hm he
    · exact .more hm hc h

theorem SpellsSome.blanks (hb : Blanks ws b cs) (h : SpellsSome ws cs items rest) :
    SpellsSome ws b items rest := by
  obtain ⟨v, more, start, stop, heq, hs, h⟩ := spellsSome_iff.1 h
  exact spellsSome_iff.2 ⟨v, more, start, stop, heq, hb.trans hs, h⟩

theorem SpellsFields.blanks (hb : Blanks ws b cs) (h : SpellsFields ws cs members rest) :
    SpellsFields ws b members rest := by
  obtain ⟨m, more, stop, heq, ⟨hs, hk, hc, hstart, hv⟩, h⟩ := spellsFields_iff.1 h
  exact spellsFields_iff.2 ⟨_, more, stop, heq, .mk (hb.trans hs) hk hc hstart hv, h⟩

theorem spellsItems_iff :
    SpellsItems ws cs items rest ↔ Left ws true ']' (SpellsSome ws) cs items rest := by
  constructor
  · rintro (he | h)
    · exact .close he
    · exact .parts (.nil _) h
  · rintro (he | ⟨hb, h⟩)
    · exact .close he
    · exact .some (h.blanks hb)

theorem spellsMembers_iff :
    SpellsMembers ws cs members rest ↔ Left ws true '\x7d' (SpellsFields ws) cs members rest := by
  constructor
  · rintro (he | h)
    · exact .close he
    · exact .parts (.nil _) h
  · rintro (he | ⟨hb, h⟩)
    · exact .close he
    · exact .some (h.blanks hb)

theorem Left.numberEnd {α : Type} {parts : List Char → List α → List Char → Prop} {xs : List α}
    (h : Left ws false c parts cs xs rest) (hc : NumberEnd [c]) : NumberEnd cs := by
  cases h with
  | close hb => exact hb.numberEnd (by simpa [NumberEnd] using hc)
  | parts hb _ => exact hb.numberEnd (by simp [NumberEnd])

theorem SpellsSome.skipBlank_eq (h : SpellsSome ws cs items rest) :
    ∃ c tail, skipBlank cs = c :: tail ∧ c ≠ ']' := by
  obtain ⟨v, more, start, stop, -, hb, hv, -⟩ := spellsSome_iff.1 h
  obtain ⟨c, tail, rfl, hc, hend⟩ := hv.exists_cons
  exact ⟨c, tail, hb.skipBlank (by simpa using hc), hend⟩

theorem SpellsFields.skipBlank_eq (h : SpellsFields ws cs members rest) :
    ∃ name, skipBlank cs = '"' :: name := by
  obtain ⟨_, _, _, -, ⟨hb, -, -, -, -⟩, -⟩ := spellsFields_iff.1 h
  exact ⟨_, hb.skipBlank (by simp [isBlank])⟩

def Ends (v : Json) (rest : List Char) : Prop := ∀ n, v = .number n → NumberEnd rest

theorem NumberEnd.ends (h : NumberEnd rest) (v : Json) : Ends v rest :=
  fun _ _ => h

mutual
theorem readValue_of_spells (fuel levels : Nat) {cs rest b : List Char} {v : Json}
    (h : Spells ws cs v rest) (hb : Blanks true b cs) (hrest : Ends v rest)
    (hn : v.nesting < levels) (hf : 3 * b.length ≤ fuel) :
    readValue fuel levels b = (Draft.ofJson v, some rest) := by
  have hskip := hb.skipBlank h.noBlank
  have hlen := hb.length_le
  have hpos := h.length_lt
  match fuel with
  | 0 => omega
  | fuel + 1 =>
    cases h with
    | null | boolTrue | boolFalse =>
      simp [readValue, hskip, readLiteral, Except.map, scalar, Draft.ofJson]
    | number _ h => exact readValue_number hskip h (hrest _ rfl)
    | string h => simp [readValue, hskip, readString_of_letters h, scalar, Draft.ofJson]
    | array h =>
      simp only [nesting, List.length_cons] at hn hlen
      have hitems := readItems_of_spells fuel (levels - 1) (spellsItems_iff.1 h) (by omega) (by omega)
      simp [readValue, hskip, show ¬ levels ≤ 1 by omega, hitems, Draft.ofJson]
    | object h =>
      simp only [nesting, List.length_cons] at hn hlen
      have hmembers := readMembers_of_spells fuel (levels - 1) (spellsMembers_iff.1 h) (by omega) (by omega)
      simp [readValue, hskip, show ¬ levels ≤ 1 by omega, hmembers, Draft.ofJson]

theorem readItems_of_spells (fuel levels : Nat) {first : Bool} {cs rest : List Char}
    {items : List Json} (h : Left ws first ']' (SpellsSome ws) cs items rest)
    (hn : nestingItems items < levels) (hf : 3 * cs.length + 2 ≤ fuel) :
    readItems fuel levels first cs = ((Draft.ofItems items, none), some rest) := by
  match fuel with
  | 0 => omega
  | fuel + 1 =>
    cases h with
    | close hb => simp [readItems, hb.skipBlank (by simp [isBlank]), Draft.ofItems]
    | parts hb h =>
      have hlen := hb.length_le
      obtain ⟨c, tail, hc, hend⟩ := h.skipBlank_eq
      have hitem := readItem_of_spells fuel levels h hn (by cases first <;> simp at hlen <;> omega)
      rw [hc] at hitem
      cases first with
      | true => simp [readItems, hb.skipBlank_eq, hc, hitem]
      | false => simp [readItems, hb.skipBlank (by simp [isBlank]), hc, hitem]

theorem readItem_of_spells (fuel levels : Nat) {cs rest : List Char} {items : List Json}
    (h : SpellsSome ws cs items rest) (hn : nestingItems items < levels)
    (hf : 3 * cs.length + 1 ≤ fuel) :
    readItem fuel levels (skipBlank cs) = ((Draft.ofItems items, none), some rest) := by
  match fuel with
  | 0 => omega
  | fuel + 1 =>
    obtain ⟨v, more, start, stop, rfl, hb, hv, hleft⟩ := spellsSome_iff.1 h
    have hstart := hb.length_le
    have hpos := hv.length_lt
    simp only [nestingItems] at hn
    have hvalue := readValue_of_spells fuel levels hv (.nil _)
      ((hleft.numberEnd (by simp [NumberEnd])).ends v) (by omega) (by omega)
    have hmore := readItems_of_spells fuel levels hleft (by omega) (by omega)
    simp [readItem, hb.skipBlank hv.noBlank, hvalue, hmore, consItem, Draft.ofItems]

theorem readMembers_of_spells (fuel levels : Nat) {first : Bool} {cs rest : List Char}
    {members : List (String × Json)} (h : Left ws first '\x7d' (SpellsFields ws) cs members rest)
    (hn : nestingMembers members < levels) (hf : 3 * cs.length + 2 ≤ fuel) :
    readMembers fuel levels first cs = ((Draft.ofMembers members, none), some rest) := by
  match fuel with
  | 0 => omega
  | fuel + 1 =>
    cases h with
    | close hb => simp [readMembers, hb.skipBlank (by simp [isBlank]), Draft.ofMembers]
    | parts hb h =>
      have hlen := hb.length_le
      obtain ⟨name, hname⟩ := h.skipBlank_eq
      have hmember := readMember_of_spells fuel levels h hname hn (by cases first <;> simp at hlen <;> omega)
      cases first with
      | true => simp [readMembers, hb.skipBlank_eq, hname, hmember]
      | false => simp [readMembers, hb.skipBlank (by simp [isBlank]), hname, hmember]

theorem readMember_of_spells (fuel levels : Nat) {cs name rest : List Char}
    {members : List (String × Json)} (h : SpellsFields ws cs members rest)
    (hname : skipBlank cs = '"' :: name) (hn : nestingMembers members < levels)
    (hf : 3 * cs.length + 1 ≤ fuel) :
    readMember fuel levels name = ((Draft.ofMembers members, none), some rest) := by
  match fuel with
  | 0 => omega
  | fuel + 1 =>
    obtain ⟨m, more, stop, rfl, ⟨hb, hk, hc, hs, hv⟩, hleft⟩ := spellsFields_iff.1 h
    have hopen := hb.length_le
    have hkey := hk.length_lt
    have hcolon := hc.length_le
    have hstart := hs.length_le
    have hpos := hv.length_lt
    simp only [List.length_cons] at hopen hcolon
    rw [hb.skipBlank (by simp [isBlank])] at hname
    cases hname
    simp only [nestingMembers] at hn
    have hvalue := readValue_of_spells fuel levels hv hs.mono
      ((hleft.numberEnd (by simp [NumberEnd])).ends _) (by omega) (by omega)
    have hmore := readMembers_of_spells fuel levels hleft (by omega) (by omega)
    simp [readMember, readString_of_letters hk, hc.skipBlank (by simp [isBlank]), hvalue, hmore,
      consMember, Draft.ofMembers]
end

/-! ## What is read is spelled -/

theorem scalar_eq {α : Type} {wrap : α → Draft} {x : Step α}
    (h : scalar wrap x = (d, some rest)) : ∃ a, x = .ok (a, rest) ∧ d = wrap a := by
  match x, h with
  | .ok (a, rest), h =>
    cases h
    exact ⟨a, rfl, rfl⟩

theorem scalar_literal_eq {e : Draft}
    (h : scalar (fun _ => e) ((readLiteral es cs).map ((), ·)) = (d, some rest)) :
    cs = es ++ rest ∧ d = e := by
  obtain ⟨_, ha, rfl⟩ := scalar_eq h
  refine ⟨eq_append_of_readLiteral ?_, rfl⟩
  cases hl : readLiteral es cs with
  | error f => rw [hl] at ha; cases ha
  | ok out => rw [hl] at ha; cases ha; rfl

mutual
theorem readValue_sound (fuel : Nat) {levels : Nat} {b rest : List Char} {d : Draft}
    (hl : 1 ≤ levels) (h : readValue fuel levels b = (d, some rest)) :
    ∃ start v, Blanks true b start ∧ Spells true start v rest ∧ d = Draft.ofJson v ∧
      v.nesting < levels := by
  match fuel with
  | 0 => simp [readValue] at h
  | fuel + 1 =>
    rw [readValue] at h
    split at h
    case _ => simp at h
    case _ cs hb =>
      obtain ⟨rfl, rfl⟩ := scalar_literal_eq h
      exact ⟨_, .null, blanks_of_skipBlank_eq hb, .null rest, rfl, hl⟩
    case _ cs hb =>
      obtain ⟨rfl, rfl⟩ := scalar_literal_eq h
      exact ⟨_, .bool true, blanks_of_skipBlank_eq hb, .boolTrue rest, rfl, hl⟩
    case _ cs hb =>
      obtain ⟨rfl, rfl⟩ := scalar_literal_eq h
      exact ⟨_, .bool false, blanks_of_skipBlank_eq hb, .boolFalse rest, rfl, hl⟩
    case _ cs hb =>
      obtain ⟨n, hn, rfl⟩ := scalar_eq h
      obtain ⟨w, rfl, hw, hval⟩ := readNumber_sound hn
      exact ⟨_, .number n, blanks_of_skipBlank_eq hb, .number rest (.negative hw hval), rfl, hl⟩
    case _ cs hb =>
      obtain ⟨s, hs, rfl⟩ := scalar_eq h
      obtain ⟨s, rfl, hletters⟩ := letters_of_readString hs
      exact ⟨_, .string _, blanks_of_skipBlank_eq hb, .string hletters, rfl, hl⟩
    case _ cs hb =>
      split at h
      · simp at h
      · obtain ⟨out, hout⟩ : ∃ out, readItems fuel (levels - 1) true cs = out := ⟨_, rfl⟩
        obtain ⟨⟨ds, stop⟩, rest'⟩ := out
        rw [hout] at h
        cases h
        obtain ⟨items, hitems, rfl, rfl, hn⟩ := readItems_sound fuel (by omega) hout
        exact ⟨_, .array items, blanks_of_skipBlank_eq hb, .array (spellsItems_iff.2 hitems), rfl, by
          simp only [nesting]; omega⟩
    case _ cs hb =>
      split at h
      · simp at h
      · obtain ⟨out, hout⟩ : ∃ out, readMembers fuel (levels - 1) true cs = out := ⟨_, rfl⟩
        obtain ⟨⟨ds, stop⟩, rest'⟩ := out
        rw [hout] at h
        cases h
        obtain ⟨members, hmembers, rfl, rfl, hn⟩ := readMembers_sound fuel (by omega) hout
        exact ⟨_, .object members, blanks_of_skipBlank_eq hb, .object (spellsMembers_iff.2 hmembers), rfl, by
          simp only [nesting]; omega⟩
    case _ c cs _ _ _ _ _ _ _ hb =>
      split at h
      · obtain ⟨n, hn, rfl⟩ := scalar_eq h
        obtain ⟨w, hw, hshape, hval⟩ := readNumber_sound hn
        rw [hw] at hb
        exact ⟨_, .number n, blanks_of_skipBlank_eq hb, .number rest (.unsigned hshape hval), rfl,
          hl⟩
      · simp at h

theorem readItems_sound (fuel : Nat) {levels : Nat} {first : Bool} {cs rest : List Char}
    {ds : List Draft} {stop : Option Fault} (hl : 1 ≤ levels)
    (h : readItems fuel levels first cs = ((ds, stop), some rest)) :
    ∃ items, Left true first ']' (SpellsSome true) cs items rest ∧ ds = Draft.ofItems items ∧
      stop = none ∧ nestingItems items < levels := by
  match fuel with
  | 0 => simp [readItems, stopAt] at h
  | fuel + 1 =>
    rw [readItems] at h
    split at h
    case _ => simp [stopAt] at h
    case _ tail hb =>
      cases h
      exact ⟨[], .close (blanks_of_skipBlank_eq hb), rfl, rfl, hl⟩
    case _ c tail _ hb =>
      split at h
      case isTrue hfirst =>
        obtain ⟨items, hitems, hds⟩ := readItem_sound fuel hl h
        exact ⟨items, .parts (by simpa [hfirst] using blanks_of_skipBlank_eq hb) hitems, hds⟩
      case isFalse hfirst =>
        split at h
        case isTrue hc =>
          subst hc
          split at h
          case h_3 hnext =>
            obtain ⟨items, hitems, hds⟩ := readItem_sound fuel hl h
            exact ⟨items, .parts (by simpa [hfirst] using blanks_of_skipBlank_eq hb)
              (hitems.blanks (blanks_of_skipBlank_eq hnext)), hds⟩
          all_goals simp [stopAt] at h
        case isFalse => simp [stopAt] at h

theorem readItem_sound (fuel : Nat) {levels : Nat} {cs rest : List Char} {ds : List Draft}
    {stop : Option Fault} (hl : 1 ≤ levels)
    (h : readItem fuel levels cs = ((ds, stop), some rest)) :
    ∃ items, SpellsSome true cs items rest ∧ ds = Draft.ofItems items ∧ stop = none ∧
      nestingItems items < levels := by
  match fuel with
  | 0 => simp [readItem, stopAt] at h
  | fuel + 1 =>
    rw [readItem] at h
    split at h
    case _ item behind hitem =>
      obtain ⟨out, hout⟩ : ∃ out, readItems fuel levels false behind = out := ⟨_, rfl⟩
      obtain ⟨⟨more, stop'⟩, rest'⟩ := out
      rw [hout] at h
      cases h
      obtain ⟨start, v, hb, hv, rfl, hn⟩ := readValue_sound fuel hl hitem
      obtain ⟨items, hleft, rfl, rfl, hn'⟩ := readItems_sound fuel hl hout
      exact ⟨v :: items, spellsSome_iff.2 ⟨_, _, _, _, rfl, hb, hv, hleft⟩, rfl, rfl, by
        simp only [nestingItems]; omega⟩
    case _ => simp at h

theorem readMembers_sound (fuel : Nat) {levels : Nat} {first : Bool} {cs rest : List Char}
    {ds : List (String × Draft)} {stop : Option Fault} (hl : 1 ≤ levels)
    (h : readMembers fuel levels first cs = ((ds, stop), some rest)) :
    ∃ members, Left true first '\x7d' (SpellsFields true) cs members rest ∧
      ds = Draft.ofMembers members ∧ stop = none ∧ nestingMembers members < levels := by
  match fuel with
  | 0 => simp [readMembers, stopAt] at h
  | fuel + 1 =>
    rw [readMembers] at h
    split at h
    case _ => simp [stopAt] at h
    case _ tail hb =>
      cases h
      exact ⟨[], .close (blanks_of_skipBlank_eq hb), rfl, rfl, hl⟩
    case _ c tail _ hb =>
      split at h
      case isTrue hfirst =>
        split at h
        case isTrue hc =>
          subst hc
          obtain ⟨members, hmembers, hds⟩ := readMember_sound fuel hl h
          exact ⟨members, .parts (by simpa [hfirst] using blanks_of_skipBlank_eq hb) hmembers, hds⟩
        case isFalse => simp [stopAt] at h
      case isFalse hfirst =>
        split at h
        case isTrue hc =>
          subst hc
          split at h
          case h_2 hnext =>
            obtain ⟨members, hmembers, hds⟩ := readMember_sound fuel hl h
            exact ⟨members, .parts (by simpa [hfirst] using blanks_of_skipBlank_eq hb)
              (hmembers.blanks (blanks_of_skipBlank_eq hnext)), hds⟩
          all_goals simp [stopAt] at h
        case isFalse => simp [stopAt] at h

theorem readMember_sound (fuel : Nat) {levels : Nat} {name rest : List Char}
    {ds : List (String × Draft)} {stop : Option Fault} (hl : 1 ≤ levels)
    (h : readMember fuel levels name = ((ds, stop), some rest)) :
    ∃ members, SpellsFields true ('"' :: name) members rest ∧ ds = Draft.ofMembers members ∧
      stop = none ∧ nestingMembers members < levels := by
  match fuel with
  | 0 => simp [readMember, stopAt] at h
  | fuel + 1 =>
    rw [readMember] at h
    split at h
    case _ => simp [stopAt] at h
    case _ key behind hkey =>
      obtain ⟨s, rfl, hletters⟩ := letters_of_readString hkey
      split at h
      case _ => simp at h
      case _ value hcolon =>
        split at h
        case _ d behind' hvalue =>
          obtain ⟨out, hout⟩ : ∃ out, readMembers fuel levels false behind' = out := ⟨_, rfl⟩
          obtain ⟨⟨more, stop'⟩, rest'⟩ := out
          rw [hout] at h
          cases h
          obtain ⟨start, v, hb, hv, rfl, hn⟩ := readValue_sound fuel hl hvalue
          obtain ⟨members, hleft, rfl, rfl, hn'⟩ := readMembers_sound fuel hl hout
          have hfield : SpellsField true ('"' :: name) _ behind' :=
            .mk (.nil _) hletters (blanks_of_skipBlank_eq hcolon) hb hv
          exact ⟨_ :: members, spellsFields_iff.2 ⟨_, _, _, rfl, hfield, hleft⟩, rfl, rfl, by
            simp only [nestingMembers]; omega⟩
        case _ => simp at h
      case _ => simp at h
end

/-! ## The first value of a text -/

theorem readDraft_of_spells (hb : Blanks true cs start) (h : Spells ws start v rest)
    (hrest : NumberEnd rest) (hn : v.nesting < nestingLimit) :
    readDraft cs = (Draft.ofJson v, some rest) :=
  readValue_of_spells _ _ h hb (hrest.ends v) hn (by omega)

theorem readDraft_sound (h : readDraft cs = (d, some rest)) :
    ∃ start v, Blanks true cs start ∧ Spells true start v rest ∧ d = Draft.ofJson v ∧
      v.nesting < nestingLimit :=
  readValue_sound _ (by decide) h

mutual
@[simp] theorem Draft.fault?_ofJson : (v : Json) → (Draft.ofJson v).fault? = none
  | .null | .bool _ | .number _ | .string _ => rfl
  | .array items => by simp [Draft.ofJson, Draft.fault?, Draft.faultItems?_ofItems items]
  | .object members => by simp [Draft.ofJson, Draft.fault?, Draft.faultMembers?_ofMembers members]

@[simp] theorem Draft.faultItems?_ofItems :
    (items : List Json) → Draft.faultItems? (Draft.ofItems items) = none
  | [] => rfl
  | v :: vs => by
    simp [Draft.ofItems, Draft.faultItems?, Draft.fault?_ofJson v, Draft.faultItems?_ofItems vs]

@[simp] theorem Draft.faultMembers?_ofMembers :
    (members : List (String × Json)) → Draft.faultMembers? (Draft.ofMembers members) = none
  | [] => rfl
  | (k, v) :: vs => by
    simp [Draft.ofMembers, Draft.faultMembers?, Draft.fault?_ofJson v,
      Draft.faultMembers?_ofMembers vs]
end

/-- What is left of a value as written when repeated names keep their last value only. -/
def settled (v : Json) : Json := (Draft.ofJson v).toJson

theorem readPrefix_of_spells (hb : Blanks true cs start) (h : Spells ws start v rest)
    (hrest : NumberEnd rest) (hn : v.nesting < nestingLimit) :
    readPrefix cs = .ok (v.settled, rest) := by
  simp [readPrefix, readDraft_of_spells hb h hrest hn, settled]

theorem readPrefix_sound (h : readPrefix cs = .ok (x, rest)) :
    ∃ start v, Blanks true cs start ∧ Spells true start v rest ∧ x = v.settled ∧
      v.nesting < nestingLimit := by
  unfold readPrefix at h
  obtain ⟨⟨d, rest'⟩, hd⟩ : ∃ out, readDraft cs = out := ⟨_, rfl⟩
  rw [hd] at h
  dsimp only at h
  split at h
  case _ => cases h
  case _ =>
    cases h
    obtain ⟨start, v, hb, hv, rfl, hn⟩ := readDraft_sound hd
    exact ⟨start, v, hb, hv, rfl, hn⟩
  case _ => cases h

/-! ## The first of a sequence of values -/

def TokenEnd (cs : List Char) : Prop := ∀ c ∈ cs.head?, endsToken c = true

@[simp] theorem tokenEnd_nil : TokenEnd [] := by simp [TokenEnd]

@[simp] theorem tokenEnd_cons (c : Char) (cs : List Char) :
    TokenEnd (c :: cs) ↔ endsToken c = true := by simp [TokenEnd]

theorem TokenEnd.numberEnd (h : TokenEnd cs) : NumberEnd cs := by
  intro c hc
  have hends := h c hc
  simp only [endsToken, isBlank, Bool.or_eq_true, beq_iff_eq, List.contains_iff_mem, List.mem_cons,
    List.not_mem_nil, or_false] at hends
  rcases hends with (((rfl | rfl) | rfl) | rfl) | rfl | rfl | rfl | rfl | rfl | rfl | rfl <;> decide

theorem Blanks.tokenEnd (h : Blanks ws cs ds) (hds : TokenEnd ds) : TokenEnd cs := by
  cases h with
  | nil => exact hds
  | cons _ hc _ => simp [endsToken, hc]

theorem readNext_of_spells (hb : Blanks true cs start) (h : Spells ws start v rest)
    (hrest : TokenEnd rest) (hn : v.nesting < nestingLimit) :
    readNext cs = .ok (v.settled, rest) := by
  rw [readNext, readPrefix_of_spells hb h hrest.numberEnd hn]
  dsimp only
  split <;> try rfl
  rename_i c tail _ _ _
  rw [if_pos (hrest c rfl)]

theorem readNext_sound (h : readNext cs = .ok (x, rest)) :
    ∃ start v, Blanks true cs start ∧ Spells true start v rest ∧ x = v.settled ∧
      v.nesting < nestingLimit ∧ Ends v rest := by
  have hstart : readPrefix cs = .ok (x, rest) ∧ ∀ n, x = .number n → TokenEnd rest := by
    unfold readNext at h
    split at h
    · cases h
    · rename_i value rest' heq
      split at h
      · cases h; exact ⟨heq, fun n hn => by cases hn⟩
      · cases h; exact ⟨heq, fun n hn => by cases hn⟩
      · cases h; exact ⟨heq, fun n hn => by cases hn⟩
      · cases h; exact ⟨heq, fun _ _ => tokenEnd_nil⟩
      · split at h
        · rename_i hends
          cases h
          exact ⟨heq, fun _ _ => (tokenEnd_cons _ _).2 hends⟩
        · cases h
  obtain ⟨start, v, hb, hv, rfl, hn⟩ := readPrefix_sound hstart.1
  refine ⟨start, v, hb, hv, rfl, hn, fun n heq => (hstart.2 n ?_).numberEnd⟩
  rw [heq]
  rfl

theorem suffix_of_readNext (h : readNext cs = .ok (x, rest)) : rest <:+ cs := by
  obtain ⟨start, v, hb, hv, -⟩ := readNext_sound h
  exact (hb.consumed (consumes_suffix true) (hv.consumed (consumes_suffix true))).1

theorem exists_string_of_readNext (h : readNext ('"' :: cs) = .ok (x, rest)) :
    ∃ s, x = .string (String.ofList s) ∧ Letters cs s rest := by
  obtain ⟨start, v, hb, hv, rfl, -⟩ := readNext_sound h
  have hstart : start = '"' :: cs := by
    cases hb with
    | nil => rfl
    | cons _ hc _ => simp [isBlank] at hc
  rw [hstart] at hv
  generalize htext : '"' :: cs = text at hv
  cases hv with
  | string hs =>
    cases htext
    exact ⟨_, rfl, hs⟩
  | number _ hw =>
    obtain ⟨c, tail, rfl, hc⟩ := hw.exists_cons
    cases htext
    simp at hc
  | _ => cases htext

theorem exists_number_of_readNext
    (hc : c = '-' ∨ c.isDigit = true) (h : readNext (c :: cs) = .ok (x, rest)) :
    ∃ n w, x = .number n ∧ c :: cs = w ++ rest ∧ Numeral w n := by
  obtain ⟨start, v, hb, hv, rfl, -⟩ := readNext_sound h
  have hblank : isBlank c = false := by
    rcases hc with rfl | hc
    · rfl
    · exact isBlank_eq_false_of_isDigit hc
  have hstart : start = c :: cs := by
    cases hb with
    | nil => rfl
    | cons _ hb _ => rw [hblank] at hb; cases hb
  rw [hstart] at hv
  generalize htext : c :: cs = text at hv
  cases hv with
  | number _ hw => exact ⟨_, _, rfl, rfl, hw⟩
  | _ => cases htext; simp at hc

end SchemaCompiler.Json
