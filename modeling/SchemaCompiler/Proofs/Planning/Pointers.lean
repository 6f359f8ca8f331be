import SchemaCompiler.Compiler.Node
import SchemaCompiler.Proofs.Json.Printing
import SchemaCompiler.Proofs.Plan.Values

/-!
# Pointers into the data

A pointer into the data becomes an expression that starts from the root or from a level and takes a
step for each token. A token that reads as a number, also with a sign or with zeros in front, is taken
for that number. So the expression has the value that the pointer addresses if numbers are written
plainly.
-/
namespace SchemaCompiler

open Json.Pointer
open Resources (looseIndex?)

variable {site : Site} {pointer token : String} {e : Expr} {w : Setting} {ρ : Locals} {v : Option Json}

/-- The expression for one step of a pointer. -/
def Expr.towards (e : Expr) (token : String) : Expr :=
  match looseIndex? token with
  | some n => if n ≤ Json.maxUnsigned then .index e (.nat n) else .index e (.str token)
  | none => .index e (.str token)

/-- Where a pointer starts: at the root, or as many levels above the data as it says. -/
def startOf {α : Type} (root : α) (levels : List α) (pointer : String) : Option (α × String) :=
  if pointer.isEmpty || pointer.startsWith "/" then some (root, pointer)
  else do
    let up ← looseIndex? (String.ofList (pointer.toList.takeWhile Char.isDigit))
    let start ← levels.reverse[up]?
    return (start, String.ofList (pointer.toList.dropWhile Char.isDigit))

theorem Site.of_dataPointer (he : site.dataPointer pointer = .ok e) : ∃ start rest,
    startOf site.rootData site.levels pointer = some (start, rest) ∧
      e = (tokens rest).foldl (fun e token => e.towards (unescape token)) (.var start) ∧
      (rest.isEmpty || rest.startsWith "/") = true := by
  unfold dataPointer at he
  dsimp only at he
  obtain ⟨⟨start, rest⟩, hstart, rfl⟩ := map_eq_ok.1 he
  unfold startOf
  split at hstart
  · cases hstart
    exact ⟨_, _, by simp [*], rfl, ‹_›⟩
  · split at hstart
    · cases hstart
    · split at hstart
      · split at hstart
        · cases hstart
          exact ⟨_, _, by simp [*], rfl, ‹_›⟩
        · cases hstart
      · cases hstart

/-! ## Tokens -/

theorem Json.Pointer.index?_toString (n : Nat) : index? (toString n) = some n := by
  have hdigits := (Json.isWhole_toDigits n).1.2
  have hvalue : ∀ (cs : List Char) k,
      cs.foldl (fun n c => n * 10 + (c.toNat - 48)) k = Nat.ofDigitChars 10 cs k := by
    intro cs k
    induction cs generalizing k with
    | nil => rfl
    | cons c cs ih =>
      rw [List.foldl_cons, ih, Nat.mul_comm]
      rfl
  unfold index?
  rw [show (toString n).toList = Nat.toDigits 10 n by simp [Nat.repr_eq_ofList_toDigits]]
  split
  · exact absurd ‹_› Nat.toDigits_ne_nil
  · rename_i hzero
    rw [Json.head?_toDigits (n := n) (by rw [hzero]; rfl)]
  · rename_i hne hzero
    obtain rfl := Json.head?_toDigits (by rw [hzero]; rfl)
    simp_all
  · rw [if_pos (List.all_eq_true.2 hdigits), hvalue, Nat.ofDigitChars_ten_toDigits]

theorem Json.Pointer.index?_eq_none (h : looseIndex? token = none) : index? token = none := by
  unfold looseIndex? at h
  unfold index?
  split
  · rfl
  · simp_all [Char.isDigit]
  · rfl
  · split
    · split at h <;> simp_all [Char.isDigit]
    · rfl

/-- A token that, if it is a number, is written plainly and has at most 64 bits. -/
def IsPlainToken (token : String) : Prop :=
  ∀ n, looseIndex? token = some n → token = toString n ∧ n ≤ Json.maxUnsigned

namespace Setting

theorem eval_towards (h : IsPlainToken token) (he : w.eval ρ e = .ok (v.getD .null)) :
    w.eval ρ (e.towards token) = .ok ((v.bind (step token)).getD .null) := by
  have hstep : ∀ key k, w.eval ρ k = .ok key → (∀ x, Machine.lookup x key = step token x) →
      w.eval ρ (.index e k) = .ok ((v.bind (step token)).getD .null) := by
    intro key k hk hlookup
    rw [eval_index, hk, he]
    cases v with
    | none => rfl
    | some x =>
      rw [Option.bind_some, ← hlookup x]
      rfl
  unfold Expr.towards
  cases hn : looseIndex? token with
  | none =>
    refine hstep _ _ (w.eval_str ρ _) fun x => ?_
    cases x with
    | array items => simp [Machine.lookup, step, index?_eq_none hn]
    | _ => rfl
  | some n =>
    obtain ⟨rfl, hle⟩ := h n hn
    simp only [hle]
    refine hstep _ _ (w.eval_nat ρ n) fun x => ?_
    cases x with
    | array items =>
      rw [step, index?_toString]
      simp [Machine.lookup, Json.ofNat, Json.Number.unsigned?]
    | _ => rfl

theorem eval_foldl_towards {ts : List String} (h : ∀ t ∈ ts, IsPlainToken (unescape t))
    (he : w.eval ρ e = .ok (v.getD .null)) :
    w.eval ρ (ts.foldl (fun e t => e.towards (unescape t)) e) =
      .ok ((v.bind (Json.Pointer.follow ts)).getD .null) := by
  induction ts generalizing e v with
  | nil => cases v <;> exact he
  | cons t ts ih =>
    rw [List.foldl_cons, ih (fun t ht => h t (by simp [ht])) (eval_towards (h t (by simp)) he)]
    cases v <;> rfl

end Setting

/-- A pointer that is accepted starts somewhere, and if its numbers are written plainly it is read as
the value that it addresses from there, or null if there is none. -/
theorem Site.eval_dataPointer (he : site.dataPointer pointer = .ok e) {root : Json}
    {levels : List Json} (hroot : Assoc.get? site.rootData ρ = some root)
    (hlevels : site.levels.map (Assoc.get? · ρ) = levels.map some) :
    ∃ base rest, startOf root levels pointer = some (base, rest) ∧
      ((∀ t ∈ tokens rest, IsPlainToken (unescape t)) →
        w.eval ρ e = .ok ((Json.Pointer.get? rest base).getD .null)) := by
  obtain ⟨start, rest, hstart, rfl, hrest⟩ := of_dataPointer he
  -- the value of the variable is where the pointer starts
  obtain ⟨base, hbase, hvalue⟩ : ∃ base, startOf root levels pointer = some (base, rest) ∧
      Assoc.get? start ρ = some base := by
    unfold startOf at hstart ⊢
    split at hstart
    · cases hstart
      exact ⟨root, by simp [*], hroot⟩
    · simp only [Option.bind_eq_bind, Option.bind_eq_some_iff] at hstart
      obtain ⟨up, hup, n, hn, heq⟩ := hstart
      cases heq
      have hlevel := congrArg (·.reverse[up]?) hlevels
      simp only [← List.map_reverse, List.getElem?_map, hn, Option.map_some] at hlevel
      obtain ⟨base, hbase, hb⟩ := Option.map_eq_some_iff.1 hlevel.symm
      exact ⟨base, by rw [if_neg ‹_›, hup]; simp [hbase], hb.symm⟩
  refine ⟨base, rest, hbase, fun hplain => ?_⟩
  have hget : Json.Pointer.get? rest base = Json.Pointer.follow (tokens rest) base := by
    by_cases hempty : rest.isEmpty = true
    · rw [String.isEmpty_iff.1 hempty]
      rfl
    · simp_all [Json.Pointer.get?]
  rw [hget]
  exact Setting.eval_foldl_towards (v := some base) hplain (Setting.eval_var_of_get? w hvalue)

/-- An item of a sibling. -/
theorem Site.eval_dataPointer_of_sibling :
    let data : Json := .object [("a", .null), ("b", .array [.bool true])]
    let ρ : Locals := [(dataName, data), (rootDataName, .null)]
    ∃ (site : Site) (e : Expr), site.dataPointer "1/b/0" = .ok e ∧
      ∀ w : Setting, w.eval ρ e = .ok (.bool true) := by
  intro data ρ
  let url : Url := (Url.read "a:b").toOption.get (by decide +kernel)
  let site : Site := ⟨.null, "", rootDataName, [dataName, rootDataName], .null, dataName, dataName,
    false, false, url, []⟩
  have haccepted : (site.dataPointer "1/b/0").toBool = true := by decide +kernel
  cases he : site.dataPointer "1/b/0" with
  | error fault => simp [he, Except.toBool] at haccepted
  | ok e =>
    refine ⟨site, e, he, fun w => ?_⟩
    have hroot : Assoc.get? site.rootData ρ = some data := rfl
    have hlevels : site.levels.map (Assoc.get? · ρ) = [data, .null].map some := rfl
    obtain ⟨base, rest, hstart, hvalue⟩ := eval_dataPointer (w := w) he hroot hlevels
    cases (show startOf data [data, .null] "1/b/0" = some (data, "/b/0") by
      decide +kernel).symm.trans hstart
    refine (hvalue fun t ht n hn => ?_).trans (congrArg Except.ok (by decide +kernel))
    rw [show tokens "/b/0" = ["b", "0"] by decide +kernel] at ht
    simp only [List.mem_cons, List.not_mem_nil, or_false] at ht
    rcases ht with rfl | rfl
    · cases hn.symm.trans (show looseIndex? (unescape "b") = none by decide +kernel)
    · cases hn.symm.trans (show looseIndex? (unescape "0") = some 0 by decide +kernel)
      decide +kernel

end SchemaCompiler
