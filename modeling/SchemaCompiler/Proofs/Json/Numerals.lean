import SchemaCompiler.Proofs.Json.Grammar

/-!
# Reading numerals

The reader of numbers takes the longest numeral in front of a text, and what it makes of it does
not depend on what follows. Whether the number is in range is decided by the numeral alone.
-/
namespace SchemaCompiler.Json

variable {cs ds tail rest sign ex fraction whole : List Char} {out : Number × List Char}
  {negative : Bool} {n : Nat} {shift : Int}

def NoDigit (cs : List Char) : Prop := ∀ c ∈ cs.head?, c.isDigit = false

def NoMark (cs : List Char) : Prop := ∀ c ∈ cs.head?, c ≠ 'e' ∧ c ≠ 'E'

def NumberEnd (cs : List Char) : Prop :=
  ∀ c ∈ cs.head?, c.isDigit = false ∧ c ≠ 'e' ∧ c ≠ 'E' ∧ c ≠ '.'

theorem NumberEnd.noDigit (h : NumberEnd cs) : NoDigit cs := fun c hc => (h c hc).1

theorem NumberEnd.noMark (h : NumberEnd cs) : NoMark cs :=
  fun c hc => ⟨(h c hc).2.1, (h c hc).2.2.1⟩

@[simp] theorem noDigit_nil : NoDigit [] := by simp [NoDigit]

@[simp] theorem noDigit_cons (c : Char) (cs : List Char) :
    NoDigit (c :: cs) ↔ c.isDigit = false := by simp [NoDigit]

@[simp] theorem noMark_nil : NoMark [] := by simp [NoMark]

@[simp] theorem noMark_cons (c : Char) (cs : List Char) :
    NoMark (c :: cs) ↔ c ≠ 'e' ∧ c ≠ 'E' := by simp [NoMark]

@[simp] theorem numberEnd_nil : NumberEnd [] := by simp [NumberEnd]

theorem exists_digits (cs : List Char) :
    ∃ ds tail, cs = ds ++ tail ∧ (∀ c ∈ ds, c.isDigit = true) ∧ NoDigit tail := by
  refine ⟨cs.takeWhile Char.isDigit, cs.dropWhile Char.isDigit, ?_, ?_, ?_⟩
  · simp
  · intro c hc
    exact List.all_eq_true.mp List.all_takeWhile c hc
  · intro c hc
    have h := List.head?_dropWhile_not Char.isDigit cs
    rw [Option.mem_def.mp hc] at h
    simpa using h

section

variable (hds : ∀ c ∈ ds, c.isDigit = true)

include hds

theorem dropWhile_digits (ht : NoDigit tail) :
    (ds ++ tail).dropWhile Char.isDigit = tail := by
  rw [List.dropWhile_append_of_pos hds]
  cases tail with
  | nil => rfl
  | cons c cs => simp_all

theorem takeWhile_digits (ht : NoDigit tail) :
    (ds ++ tail).takeWhile Char.isDigit = ds := by
  rw [List.takeWhile_append_of_pos hds]
  cases tail with
  | nil => simp
  | cons c cs => simp_all

/-! ## Taking in digits -/

/-- Digits are taken in as far as they fit; the others are left in front of what follows. -/
theorem absorb_append (n : Nat) :
    ∃ m count left, (∀ c ∈ left, c.isDigit = true) ∧ count + left.length = ds.length ∧
      ∀ tail, NoDigit tail → absorb n (ds ++ tail) = (m, count, left ++ tail) := by
  induction ds generalizing n with
  | nil =>
    refine ⟨n, 0, [], by simp, rfl, fun tail ht => ?_⟩
    cases tail with
    | nil => rfl
    | cons c cs => simp_all [absorb]
  | cons d ds ih =>
    obtain ⟨hd, hrest⟩ := List.forall_mem_cons.1 hds
    by_cases hfit : n * 10 + (d.toNat - 48) ≤ maxUnsigned
    · obtain ⟨m, count, left, hl, hlen, h⟩ := ih hrest (n * 10 + (d.toNat - 48))
      refine ⟨m, count + 1, left, hl, by simp; omega, fun tail ht => ?_⟩
      simp [absorb, hd, hfit, h tail ht]
    · refine ⟨n, 0, d :: ds, hds, by simp, fun tail _ => ?_⟩
      simp [absorb, hfit]

/-- An exponent is taken in to its end, or up to the digit with which it outgrows its bound. -/
theorem absorbExponent_append (n : Nat) :
    ∃ e left, (∀ c ∈ left, c.isDigit = true) ∧ (e.isSome → left = []) ∧
      ∀ tail, NoDigit tail → absorbExponent n (ds ++ tail) = (e, left ++ tail) := by
  induction ds generalizing n with
  | nil =>
    refine ⟨some n, [], by simp, by simp, fun tail ht => ?_⟩
    cases tail with
    | nil => rfl
    | cons c cs => simp_all [absorbExponent]
  | cons d ds ih =>
    obtain ⟨hd, hrest⟩ := List.forall_mem_cons.1 hds
    by_cases hfit : n * 10 + (d.toNat - 48) ≤ 2147483647
    · obtain ⟨e, left, hl, hsome, h⟩ := ih hrest (n * 10 + (d.toNat - 48))
      refine ⟨e, left, hl, hsome, fun tail ht => ?_⟩
      simp [absorbExponent, hd, hfit, h tail ht]
    · refine ⟨none, ds, hrest, by simp, fun tail _ => ?_⟩
      simp [absorbExponent, hd, hfit]

end

/-! ## One outcome for one numeral -/

/-- The outcome on a numeral alone, and its outcome in front of `tail`: the same number, or a fault
both times. -/
inductive Alongside (tail : List Char) : Step Number → Step Number → Prop
  | ok (n : Number) : Alongside tail (.ok (n, [])) (.ok (n, tail))
  | error (f g : Fault) : Alongside tail (.error f) (.error g)

theorem Alongside.ok_iff {x y : Step Number} (h : Alongside tail x y) (n : Number) :
    y = .ok (n, rest) ↔ x = .ok (n, []) ∧ rest = tail := by
  cases h with
  | ok m =>
    simp only [Except.ok.injEq, Prod.mk.injEq, and_true]
    exact and_congr_right fun _ => eq_comm
  | error f g => simp

section

variable (negative n shift)

theorem readScaled_alongside (e : Int) (tail : List Char) :
    Alongside tail (readScaled negative n e []) (readScaled negative n e tail) := by
  unfold readScaled
  cases Binary64.ofDecimal? negative n e with
  | none => exact .error _ _
  | some x => exact .ok _

theorem readExponent_signed (hsign : sign = [] ∨ sign = ['+'] ∨ sign = ['-']) {d : Char}
    (hd : d.isDigit = true) (cs : List Char) : readExponent negative n shift (sign ++ d :: cs) =
      match absorbExponent (d.toNat - 48) cs with
      | (some e, rest) =>
        readScaled negative n (if sign = ['-'] then shift - e else shift + e) rest
      | (none, rest) =>
        if n ≠ 0 ∧ sign ≠ ['-'] then .error (.before .numberOutOfRange rest)
        else .ok (.float (Binary64.zero negative), rest.dropWhile Char.isDigit) := by
  obtain ⟨out, hout⟩ : ∃ out, absorbExponent (d.toNat - 48) cs = out := ⟨_, rfl⟩
  rcases hsign with rfl | rfl | rfl
  · have hplus : d ≠ '+' := by rintro rfl; simp at hd
    have hminus : d ≠ '-' := by rintro rfl; simp at hd
    rcases out with ⟨_ | e, rest⟩ <;> simp [readExponent, hd, hplus, hminus, hout]
  all_goals rcases out with ⟨_ | e, rest⟩ <;> simp [readExponent, hd, hout]

theorem readExponent_alongside (hsign : sign = [] ∨ sign = ['+'] ∨ sign = ['-'])
    (hds : IsDigits ds) (ht : NoDigit tail) :
    Alongside tail (readExponent negative n shift (sign ++ ds))
      (readExponent negative n shift (sign ++ (ds ++ tail))) := by
  obtain ⟨hne, hds⟩ := hds
  cases ds with
  | nil => exact absurd rfl hne
  | cons d ds =>
    obtain ⟨hd, hrest⟩ := List.forall_mem_cons.1 hds
    obtain ⟨e, left, hl, hsome, h⟩ := absorbExponent_append hrest _
    have halone := h [] noDigit_nil
    have hleft := dropWhile_digits hl noDigit_nil
    rw [List.append_nil] at halone
    rw [List.cons_append, readExponent_signed negative n shift hsign hd,
      readExponent_signed negative n shift hsign hd, halone, h tail ht]
    cases e with
    | some e =>
      cases hsome rfl
      exact readScaled_alongside _ _ _ _
    | none =>
      dsimp only
      split
      · exact .error _ _
      · rw [hleft, dropWhile_digits hl ht]
        exact .ok _

theorem readFractionEnd_alongside (hex : IsExponent ex) (ht : NoDigit tail)
    (hmark : ex = [] → NoMark tail) :
    Alongside tail (readFractionEnd negative n shift ex)
      (readFractionEnd negative n shift (ex ++ tail)) := by
  rcases hex with rfl | ⟨mark, sign, ds, rfl, hm, hsign, hds⟩
  · have hplain : readFractionEnd negative n shift tail = readScaled negative n shift tail := by
      cases tail with
      | nil => rfl
      | cons c cs => simp_all [readFractionEnd]
    rw [List.nil_append, hplain]
    exact readScaled_alongside _ _ _ _
  · rcases hm with rfl | rfl <;>
    simpa [readFractionEnd] using readExponent_alongside negative n shift hsign hds ht

theorem readFraction_digits (hds : IsDigits ds) :
    ∃ m shift', ∀ tail, NoDigit tail →
      readFraction negative n shift (ds ++ tail) = readFractionEnd negative m shift' tail := by
  obtain ⟨m, count, left, hl, hlen, h⟩ := absorb_append hds.2 n
  refine ⟨m, shift - count, fun tail ht => ?_⟩
  have hlength : 0 < ds.length := List.length_pos_iff.mpr hds.1
  have hdrop := dropWhile_digits hl ht
  simp only [readFraction, h tail ht]
  cases hr : left ++ tail with
  | nil =>
    obtain ⟨rfl, rfl⟩ := List.append_eq_nil_iff.mp hr
    have hcount : count ≠ 0 := by simp at hlen; omega
    simp [hcount]
  | cons c rest =>
    rw [hr] at hdrop
    have hgoes : ¬ (count = 0 ∧ c.isDigit = false) := by
      rintro ⟨rfl, hc⟩
      cases left with
      | nil => simp at hlen; omega
      | cons d left =>
        obtain ⟨rfl, -⟩ : d = c ∧ left ++ tail = rest := by simpa using hr
        simp [hl d] at hc
    simp [hgoes, hdrop]

theorem readNumberEnd_alongside (dropped : Nat) (hf : IsFraction fraction)
    (hex : IsExponent ex) (ht : NoDigit tail) (hmark : ex = [] → NoMark tail)
    (hpoint : fraction = [] → ex = [] → tail.head? ≠ some '.') :
    Alongside tail (readNumberEnd negative n dropped (fraction ++ ex))
      (readNumberEnd negative n dropped (fraction ++ (ex ++ tail))) := by
  rcases hf with rfl | ⟨ds, rfl, hds⟩
  · rcases hex with rfl | ⟨mark, sign, ds, rfl, hm, hsign, hds⟩
    · have hplain : ∀ cs : List Char, NoMark cs → cs.head? ≠ some '.' →
          readNumberEnd negative n dropped cs =
            if dropped ≠ 0 then readScaled negative n dropped cs
            else if negative = false then .ok (.int n, cs)
            else if n = 0 ∨ minSigned > -n then
              .ok (.float (Binary64.nearest true n 1), cs)
            else .ok (.int (-n), cs) := by
        intro cs hm hp
        cases cs with
        | nil => rfl
        | cons c cs =>
          rw [readNumberEnd.eq_def]
          simp_all
      simp only [List.nil_append]
      rw [hplain [] (by simp) (by simp), hplain tail (hmark rfl) (hpoint rfl rfl)]
      split
      · exact readScaled_alongside _ _ _ _
      · split
        · exact .ok _
        · split <;> exact .ok _
    · rcases hm with rfl | rfl <;>
      simpa [readNumberEnd] using readExponent_alongside negative n dropped hsign hds ht
  · have hstop : ∀ cs : List Char, NoDigit cs → NoDigit (ex ++ cs) := by
      intro cs hcs
      rcases hex with rfl | ⟨mark, sign, ds, rfl, hm, -, -⟩
      · exact hcs
      · rcases hm with rfl | rfl <;> simp
    obtain ⟨m, shift, h⟩ := readFraction_digits negative n dropped hds
    have halone := h ex (by simpa using hstop [] noDigit_nil)
    have hboth := h (ex ++ tail) (hstop tail ht)
    simp only [readNumberEnd, List.cons_append, halone, hboth]
    exact readFractionEnd_alongside negative m shift hex ht hmark

theorem readNumber_whole (hw : IsWhole whole) :
    ∃ n dropped, ∀ tail, NoDigit tail →
      readNumber negative (whole ++ tail) = readNumberEnd negative n dropped tail := by
  obtain ⟨⟨hne, hds⟩, hzero⟩ := hw
  cases whole with
  | nil => exact absurd rfl hne
  | cons d ds =>
    by_cases hd : d = '0'
    · subst hd
      have hnil : ds = [] := by simpa using hzero rfl
      subst hnil
      refine ⟨0, 0, fun tail ht => ?_⟩
      cases tail with
      | nil => rfl
      | cons c cs => simp_all [readNumber]
    · obtain ⟨n, count, left, hl, -, h⟩ := absorb_append hds 0
      refine ⟨n, left.length, fun tail ht => ?_⟩
      have hdigit : d.isDigit = true := hds d (by simp)
      have habsorb := h tail ht
      rw [List.cons_append] at habsorb ⊢
      rw [readNumber.eq_def]
      simp [hdigit, habsorb, takeWhile_digits hl ht, dropWhile_digits hl ht]

end

/-! ## What is read -/

theorem IsExponent.noDigit_append (hex : IsExponent ex) (ht : NoDigit tail) :
    NoDigit (ex ++ tail) := by
  rcases hex with rfl | ⟨mark, sign, ds, rfl, rfl | rfl, -, -⟩
  · exact ht
  all_goals simp

theorem IsFraction.noDigit_append (hf : IsFraction fraction) (ht : NoDigit tail) :
    NoDigit (fraction ++ tail) := by
  rcases hf with rfl | ⟨ds, rfl, -⟩
  · exact ht
  · simp

theorem readNumber_alongside (negative : Bool) (hw : IsWhole whole) (hf : IsFraction fraction)
    (hex : IsExponent ex) (ht : NoDigit tail) (hmark : ex = [] → NoMark tail)
    (hpoint : fraction = [] → ex = [] → tail.head? ≠ some '.') :
    Alongside tail (readNumber negative (whole ++ (fraction ++ ex)))
      (readNumber negative (whole ++ (fraction ++ (ex ++ tail)))) := by
  obtain ⟨n, dropped, h⟩ := readNumber_whole negative hw
  have hnil : NoDigit (fraction ++ ex) := by
    simpa using hf.noDigit_append (hex.noDigit_append noDigit_nil)
  rw [h _ hnil, h _ (hf.noDigit_append (hex.noDigit_append ht))]
  exact readNumberEnd_alongside negative n dropped hf hex ht hmark hpoint

theorem readNumeral?_eq_some {n : Number} :
    readNumeral? negative cs = some n ↔ readNumber negative cs = .ok (n, []) := by
  unfold readNumeral?
  split <;> simp_all

theorem readNumber_append {n : Number} (h : IsUnsigned cs) (hn : readNumeral? negative cs = some n)
    (ht : NumberEnd tail) : readNumber negative (cs ++ tail) = .ok (n, tail) := by
  obtain ⟨whole, fraction, ex, rfl, hw, hf, hex⟩ := h
  have hpoint : tail.head? ≠ some '.' := fun hc => (ht _ hc).2.2.2 rfl
  have halong := readNumber_alongside negative hw hf hex ht.noDigit (fun _ => ht.noMark)
    fun _ _ => hpoint
  simp only [List.append_assoc]
  exact (halong.ok_iff n).mpr ⟨readNumeral?_eq_some.mp hn, rfl⟩

theorem exists_signed (h : readExponent negative n shift cs = .ok out) :
    ∃ sign d rest, cs = sign ++ d :: rest ∧ (sign = [] ∨ sign = ['+'] ∨ sign = ['-']) ∧
      d.isDigit = true := by
  have hdigit : ∀ (sign rest : List Char), cs = sign ++ rest →
      (sign = [] ∨ sign = ['+'] ∨ sign = ['-']) → (∃ d tail, rest = d :: tail ∧ d.isDigit = true) →
      ∃ sign d rest, cs = sign ++ d :: rest ∧ (sign = [] ∨ sign = ['+'] ∨ sign = ['-']) ∧
        d.isDigit = true := by
    rintro sign _ rfl hsign ⟨d, tail, rfl, hd⟩
    exact ⟨sign, d, tail, rfl, hsign, hd⟩
  cases cs with
  | nil => simp [readExponent] at h
  | cons c cs =>
    by_cases hplus : c = '+'
    · refine hdigit ['+'] cs (by simp [hplus]) (by simp) ?_
      cases cs with
      | nil => simp [readExponent, hplus] at h
      | cons d cs => by_cases hd : d.isDigit = true <;> simp_all [readExponent]
    · by_cases hminus : c = '-'
      · refine hdigit ['-'] cs (by simp [hminus]) (by simp) ?_
        cases cs with
        | nil => simp [readExponent, hminus] at h
        | cons d cs => by_cases hd : d.isDigit = true <;> simp_all [readExponent]
      · refine hdigit [] (c :: cs) rfl (by simp) ⟨c, cs, rfl, ?_⟩
        by_cases hd : c.isDigit = true <;> simp_all [readExponent]

theorem exists_exponent (h : readExponent negative n shift cs = .ok out) :
    ∃ sign ds tail, cs = sign ++ (ds ++ tail) ∧ (sign = [] ∨ sign = ['+'] ∨ sign = ['-']) ∧
      IsDigits ds ∧ NoDigit tail := by
  obtain ⟨sign, d, rest, rfl, hsign, hd⟩ := exists_signed h
  obtain ⟨ds, tail, rfl, hds, ht⟩ := exists_digits rest
  refine ⟨sign, d :: ds, tail, rfl, hsign, ⟨by simp, ?_⟩, ht⟩
  intro c hc
  rcases List.mem_cons.mp hc with rfl | hc
  · exact hd
  · exact hds c hc

theorem exists_fractionEnd (h : readFractionEnd negative n shift cs = .ok out) (hcs : NoDigit cs) :
    ∃ ex tail, cs = ex ++ tail ∧ IsExponent ex ∧ NoDigit tail ∧ (ex = [] → NoMark tail) := by
  rw [readFractionEnd.eq_def] at h
  split at h
  · obtain ⟨sign, ds, tail, rfl, hsign, hds, ht⟩ := exists_exponent h
    exact ⟨'e' :: (sign ++ ds), tail, by simp, .inr ⟨'e', sign, ds, rfl, by simp, hsign, hds⟩, ht,
      by simp⟩
  · obtain ⟨sign, ds, tail, rfl, hsign, hds, ht⟩ := exists_exponent h
    exact ⟨'E' :: (sign ++ ds), tail, by simp, .inr ⟨'E', sign, ds, rfl, by simp, hsign, hds⟩, ht,
      by simp⟩
  · refine ⟨[], cs, rfl, .inl rfl, hcs, fun _ => ?_⟩
    cases cs with
    | nil => simp
    | cons c cs => simp_all

theorem exists_fraction (h : readFraction negative n shift cs = .ok out) :
    ∃ ds ex tail, cs = ds ++ (ex ++ tail) ∧ IsDigits ds ∧ IsExponent ex ∧ NoDigit tail ∧
      (ex = [] → NoMark tail) := by
  obtain ⟨ds, rest, rfl, hds, hrest⟩ := exists_digits cs
  have hne : ds ≠ [] := by
    rintro rfl
    cases rest with
    | nil => simp [readFraction, absorb] at h
    | cons c rest => simp_all [readFraction, absorb]
  obtain ⟨m, shift', heq⟩ := readFraction_digits negative n shift ⟨hne, hds⟩
  rw [heq rest hrest] at h
  obtain ⟨ex, tail, rfl, hex, ht, hmark⟩ := exists_fractionEnd h hrest
  exact ⟨ds, ex, tail, rfl, ⟨hne, hds⟩, hex, ht, hmark⟩

theorem exists_numberEnd {dropped : Nat} (h : readNumberEnd negative n dropped cs = .ok out)
    (hcs : NoDigit cs) :
    ∃ fraction ex tail, cs = fraction ++ (ex ++ tail) ∧ IsFraction fraction ∧ IsExponent ex ∧
      NoDigit tail ∧ (ex = [] → NoMark tail) ∧
      (fraction = [] → ex = [] → tail.head? ≠ some '.') := by
  rw [readNumberEnd.eq_def] at h
  split at h
  · obtain ⟨ds, ex, tail, rfl, hds, hex, ht, hmark⟩ := exists_fraction h
    exact ⟨'.' :: ds, ex, tail, by simp, .inr ⟨ds, rfl, hds⟩, hex, ht, hmark, by simp⟩
  · obtain ⟨sign, ds, tail, rfl, hsign, hds, ht⟩ := exists_exponent h
    exact ⟨[], 'e' :: (sign ++ ds), tail, by simp, .inl rfl,
      .inr ⟨'e', sign, ds, rfl, by simp, hsign, hds⟩, ht, by simp, by simp⟩
  · obtain ⟨sign, ds, tail, rfl, hsign, hds, ht⟩ := exists_exponent h
    exact ⟨[], 'E' :: (sign ++ ds), tail, by simp, .inl rfl,
      .inr ⟨'E', sign, ds, rfl, by simp, hsign, hds⟩, ht, by simp, by simp⟩
  · refine ⟨[], [], cs, rfl, .inl rfl, .inl rfl, hcs, fun _ => ?_, fun _ _ => ?_⟩ <;>
    cases cs with
    | nil => simp
    | cons c cs => simp_all

theorem readNumber_sound {n : Number} (h : readNumber negative cs = .ok (n, rest)) :
    ∃ w, cs = w ++ rest ∧ IsUnsigned w ∧ readNumeral? negative w = some n := by
  obtain ⟨whole, body, rfl, hds, hbody⟩ := exists_digits cs
  have hw : IsWhole whole := by
    cases whole with
    | nil =>
      cases body with
      | nil => simp [readNumber] at h
      | cons c body =>
        rw [readNumber.eq_def] at h
        split at h
        · simp_all
        · simp_all
        · simp_all
    | cons d ds =>
      refine ⟨⟨by simp, hds⟩, fun hzero => ?_⟩
      have hd : d = '0' := by simpa using hzero
      subst hd
      cases ds with
      | nil => rfl
      | cons e ds =>
        have he : e.isDigit = true := hds e (by simp)
        simp [readNumber, he] at h
  obtain ⟨m, dropped, heq⟩ := readNumber_whole negative hw
  have hend := h
  rw [heq body hbody] at hend
  obtain ⟨fraction, ex, tail, rfl, hf, hex, ht, hmark, hpoint⟩ := exists_numberEnd hend hbody
  have halong := readNumber_alongside negative hw hf hex ht hmark hpoint
  obtain ⟨hn, rfl⟩ := (halong.ok_iff n).mp h
  exact ⟨whole ++ (fraction ++ ex), by simp, ⟨whole, fraction, ex, rfl, hw, hf, hex⟩,
    readNumeral?_eq_some.mpr hn⟩

end SchemaCompiler.Json
