import Mathlib.Order.Defs.PartialOrder
import SchemaCompiler.Program.Fresh

/-!
# Fresh names

A name of a stem is the stem with a number behind it. Because a stem does not end in a digit, the
name says which stem and which number it came from. So a name that counters give is none of those
they gave before, and none of those kept for the values and functions of a whole program.
-/
namespace SchemaCompiler

variable {s t stem : Stem} {n : Name} {c d : Counters}

/-! ## Stems and numbers -/

theorem takeWhile_isDigit_append {digits rest : List Char} (hd : ∀ c ∈ digits, c.isDigit = true)
    (hr : ∀ c ∈ rest.head?, c.isDigit = false) :
    (digits ++ rest).takeWhile Char.isDigit = digits := by
  induction digits with
  | nil =>
    cases rest with
    | nil => rfl
    | cons c cs => simp [hr c (by simp)]
  | cons c cs ih =>
    simp only [List.cons_append, List.takeWhile_cons, hd c (by simp), if_true]
    rw [ih fun d h => hd d (by simp [h])]

theorem toDigits_injective {n m : Nat} (h : Nat.toDigits 10 n = Nat.toDigits 10 m) : n = m := by
  have hn := Nat.ofDigitChars_toDigits (b := 10) (n := n) (by decide) (by decide)
  rw [h, Nat.ofDigitChars_toDigits (by decide) (by decide)] at hn
  exact hn.symm

namespace Stem

theorem ext (h : s.text = t.text) : s = t := by
  cases s
  cases t
  simpa using h

theorem toList_name (stem : Stem) (n : Nat) :
    (stem.name n).text.toList = stem.text.toList ++ Nat.toDigits 10 n := by
  show (stem.text ++ toString n).toList = _
  rw [String.toList_append]
  show stem.text.toList ++ n.repr.toList = _
  rw [Nat.toList_repr]

theorem digits_name (stem : Stem) (n : Nat) :
    (stem.name n).text.toList.reverse.takeWhile Char.isDigit = (Nat.toDigits 10 n).reverse := by
  rw [toList_name, List.reverse_append]
  refine takeWhile_isDigit_append (fun c hc => ?_) fun c hc => ?_
  · exact Nat.isDigit_of_mem_toDigits (by decide) (by decide) (List.mem_reverse.1 hc)
  · have hu := stem.undigited
    rw [List.head?_reverse] at hc
    simpa [endsInDigit, Option.mem_def.1 hc] using hu

theorem name_inj {n m : Nat} : s.name n = t.name m ↔ s = t ∧ n = m := by
  refine ⟨fun h => ?_, fun ⟨hs, hn⟩ => by rw [hs, hn]⟩
  have hd : (Nat.toDigits 10 n).reverse = (Nat.toDigits 10 m).reverse := by
    rw [← digits_name s n, ← digits_name t m, h]
  have hnm : n = m := toDigits_injective (List.reverse_inj.1 hd)
  have ht : s.text.toList ++ Nat.toDigits 10 n = t.text.toList ++ Nat.toDigits 10 m := by
    rw [← toList_name, ← toList_name, h]
  rw [hnm] at ht
  have hst : s.text = t.text := String.toList_inj.1 (List.append_cancel_right ht)
  refine ⟨?_, hnm⟩
  cases s
  cases t
  simpa using hst

theorem ne_name (h : endsInDigit n.text = false) (stem : Stem) (k : Nat) : n ≠ stem.name k := by
  rintro rfl
  have hne : Nat.toDigits 10 k ≠ [] := Nat.toDigits_ne_nil
  cases hk : (Nat.toDigits 10 k).reverse with
  | nil => exact hne (List.reverse_eq_nil_iff.1 hk)
  | cons c cs =>
    have hc : c.isDigit = true :=
      Nat.isDigit_of_mem_toDigits (b := 10) (n := k) (by decide) (by decide)
        (List.mem_reverse.1 (by simp [hk]))
    have hl : (stem.name k).text.toList.getLast? = some c := by
      rw [← List.head?_reverse, toList_name, List.reverse_append, hk]
      rfl
    simp [endsInDigit, hl, hc] at h

end Stem

/-! ## Kinds of names -/

namespace Name

def Reserved (n : Name) : Prop :=
  ∃ (stem : Stem) (k : Nat), stem.isReserved = true ∧ n = stem.name k

def routineStems : List String := ["func", "pattern", "format", "keyword"]

def Routine (n : Name) : Prop :=
  ∃ (stem : Stem) (k : Nat), stem.text ∈ routineStems ∧ n = stem.name k

theorem Routine.reserved (h : n.Routine) : n.Reserved := by
  obtain ⟨stem, k, hs, rfl⟩ := h
  refine ⟨stem, k, ?_, rfl⟩
  simp only [routineStems, List.mem_cons, List.not_mem_nil, or_false] at hs
  rcases hs with hs | hs | hs | hs <;> rw [Stem.isReserved, hs] <;> decide

theorem not_reserved_of_local (stem : LocalStem) (k : Nat) : ¬ (stem.toStem.name k).Reserved := by
  rintro ⟨other, j, hr, h⟩
  obtain ⟨rfl, -⟩ := Stem.name_inj.1 h
  have := stem.free
  simp_all

theorem not_reserved_of_undigited (h : endsInDigit n.text = false) : ¬ n.Reserved := by
  rintro ⟨stem, k, -, hn⟩
  exact Stem.ne_name h stem k hn

end Name

/-! ## Counters -/

namespace Counters

@[simp] theorem count_empty (text : String) : empty.count text = 0 := rfl

theorem count_next_self (c : Counters) (stem : Stem) :
    (c.next stem).2.count stem.text = c.count stem.text + 1 := by
  simp [next, count, Assoc.get?_insert_self]

theorem count_next_of_ne (c : Counters) {text : String} (h : text ≠ stem.text) :
    (c.next stem).2.count text = c.count text := by
  simp [next, count, Assoc.get?_insert_of_ne h]

/-- Later counters have given at least as many names of each stem. -/
instance : LE Counters := ⟨fun c d => ∀ text, c.count text ≤ d.count text⟩

instance : Preorder Counters where
  le_refl _ _ := Nat.le_refl _
  le_trans _ _ _ h h' text := Nat.le_trans (h text) (h' text)

theorem le_next (c : Counters) (stem : Stem) : c ≤ (c.next stem).2 := by
  intro text
  by_cases h : text = stem.text
  · rw [h, count_next_self]
    omega
  · exact Nat.le_of_eq (count_next_of_ne c h).symm

/-- A name that the counters will not give: if it comes from a stem for names inside a function, it
has been given already. -/
def Old (c : Counters) (n : Name) : Prop :=
  ∀ (stem : LocalStem) (k : Nat), n = stem.toStem.name k → k < c.count stem.text

theorem Old.mono (h : c ≤ d) (ho : c.Old n) : d.Old n :=
  fun stem k hn => Nat.lt_of_lt_of_le (ho stem k hn) (h _)

theorem old_of_reserved (c : Counters) (h : n.Reserved) : c.Old n := by
  rintro stem k rfl
  exact absurd h (Name.not_reserved_of_local stem k)

theorem old_of_not_endsInDigit (c : Counters) (h : endsInDigit n.text = false) : c.Old n :=
  fun stem k hn => absurd hn (Stem.ne_name h stem.toStem k)

theorem not_old_next (c : Counters) (stem : LocalStem) : ¬ c.Old (c.next stem.toStem).1 :=
  fun h => Nat.lt_irrefl _ (h stem _ rfl)

theorem old_next (c : Counters) (stem : LocalStem) :
    (c.next stem.toStem).2.Old (c.next stem.toStem).1 := by
  intro other k h
  obtain ⟨hs, rfl⟩ := Stem.name_inj.1 h
  rw [← hs, count_next_self]
  exact Nat.lt_succ_self _

def Given (c : Counters) (n : Name) : Prop :=
  ∃ (stem : Stem) (k : Nat), n = stem.name k ∧ k < c.count stem.text

theorem Given.mono (h : c ≤ d) (hg : c.Given n) : d.Given n := by
  obtain ⟨stem, k, hn, hk⟩ := hg
  exact ⟨stem, k, hn, Nat.lt_of_lt_of_le hk (h _)⟩

theorem given_next (c : Counters) (stem : Stem) : (c.next stem).2.Given (c.next stem).1 :=
  ⟨stem, _, rfl, by rw [count_next_self]; exact Nat.lt_succ_self _⟩

theorem given_cons_next {given : List Name} (h : ∀ n ∈ given, c.Given n) (stem : Stem) :
    ∀ n ∈ (c.next stem).1 :: given, (c.next stem).2.Given n :=
  List.forall_mem_cons.2 ⟨c.given_next stem, fun n hn => (h n hn).mono (c.le_next stem)⟩

theorem not_given_next (c : Counters) (stem : Stem) : ¬ c.Given (c.next stem).1 := by
  rintro ⟨other, k, hn, hk⟩
  obtain ⟨rfl, rfl⟩ := Stem.name_inj.1 hn
  exact Nat.lt_irrefl _ hk

theorem given_of_next (h : (c.next stem).2.Given n) : c.Given n ∨ n = (c.next stem).1 := by
  obtain ⟨other, k, rfl, hk⟩ := h
  by_cases hs : other = stem
  · subst hs
    rw [count_next_self] at hk
    rcases Nat.lt_succ_iff_lt_or_eq.1 hk with hk | rfl
    · exact .inl ⟨other, k, rfl, hk⟩
    · exact .inr rfl
  · rw [count_next_of_ne c fun ht => hs (Stem.ext ht)] at hk
    exact .inl ⟨other, k, rfl, hk⟩

end Counters
end SchemaCompiler
