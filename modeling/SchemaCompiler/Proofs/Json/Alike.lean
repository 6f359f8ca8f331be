import SchemaCompiler.Proofs.Json.Values

/-!
# Values up to the order of members

The members of an object have no order of their own: two objects are alike if the same names have
alike values in them. This is an equivalence, and it keeps what is said about all numbers of a value.
-/
namespace SchemaCompiler.Json

open Draft

variable {v w u : Json} {n : Nat} {ws ws' : Bool} {cs rest : List Char}

/-- Two values are the same up to the order of the members of objects. -/
inductive Alike : Json → Json → Prop
  | refl (v : Json) : Alike v v
  | array {xs ys : List Json} (hlength : xs.length = ys.length)
      (h : ∀ (i : Nat) x y, xs[i]? = some x → ys[i]? = some y → Alike x y) : Alike (.array xs) (.array ys)
  | object {ms ns : List (String × Json)}
      (hnames : ∀ k, Assoc.get? k ms = none ↔ Assoc.get? k ns = none)
      (h : ∀ k v w, Assoc.get? k ms = some v → Assoc.get? k ns = some w → Alike v w) :
      Alike (.object ms) (.object ns)

theorem Alike.symm (h : Alike v w) : Alike w v := by
  induction h with
  | refl v => exact .refl v
  | array hlength _ ih => exact .array hlength.symm fun i y x hy hx => ih i x y hx hy
  | object hnames _ ih => exact .object (fun k => (hnames k).symm) fun k w v hw hv => ih k v w hv hw

theorem Alike.trans (h : Alike u v) (h' : Alike v w) : Alike u w := by
  induction h generalizing w with
  | refl v => exact h'
  | @array xs ys hlength h ih =>
    cases h' with
    | refl => exact .array hlength h
    | @array _ zs hlength' hzs =>
      refine .array (hlength.trans hlength') fun i x z hx hz => ?_
      obtain ⟨hi, -⟩ := List.getElem?_eq_some_iff.1 hx
      have hy : ys[i]? = some ys[i] := List.getElem?_eq_getElem _
      exact ih i x _ hx hy (hzs i _ z hy hz)
  | @object ms ns hnames h ih =>
    cases h' with
    | refl => exact .object hnames h
    | @object _ ls hnames' hls =>
      refine .object (fun k => (hnames k).trans (hnames' k)) fun k v w hv hw => ?_
      cases hy : Assoc.get? k ns with
      | none => rw [(hnames k).2 hy] at hv; cases hv
      | some y => exact ih k v y hv hy (hls k y w hy hw)

/-! ## Settled values -/

theorem distinct_settled (v : Json) : v.settled.Distinct := by
  induction v using induction_parts with
  | array items ih =>
    rw [settled_array]
    refine distinctItems_iff.2 fun w hw => ?_
    obtain ⟨v, hv, rfl⟩ := List.mem_map.1 hw
    exact ih v hv
  | object members ih =>
    rw [settled_object]
    refine ⟨Assoc.nodup_ofList _, distinctMembers_iff.2 fun m hm => ?_⟩
    obtain ⟨n, hn, rfl⟩ := List.mem_map.1 (Assoc.mem_of_mem_ofList hm)
    exact ih n hn
  | _ => trivial

theorem nestingItems_le_iff {items : List Json} :
    nestingItems items ≤ n ↔ ∀ v ∈ items, v.nesting ≤ n := by
  induction items with
  | nil => simp [nestingItems]
  | cons v vs ih => simp [nestingItems, Nat.max_le, ih]

theorem nestingMembers_le_iff {members : List (String × Json)} :
    nestingMembers members ≤ n ↔ ∀ m ∈ members, m.2.nesting ≤ n := by
  induction members with
  | nil => simp [nestingMembers]
  | cons m ms ih => simp [nestingMembers, Nat.max_le, ih]

theorem nesting_settled_le (v : Json) : v.settled.nesting ≤ v.nesting := by
  induction v using induction_parts with
  | array items ih =>
    rw [settled_array]
    refine Nat.succ_le_succ (nestingItems_le_iff.2 fun w hw => ?_)
    obtain ⟨v, hv, rfl⟩ := List.mem_map.1 hw
    exact Nat.le_trans (ih v hv) (nestingItems_le_iff.1 (Nat.le_refl _) v hv)
  | object members ih =>
    rw [settled_object]
    refine Nat.succ_le_succ (nestingMembers_le_iff.2 fun m hm => ?_)
    obtain ⟨n, hn, rfl⟩ := List.mem_map.1 (Assoc.mem_of_mem_ofList hm)
    exact Nat.le_trans (ih n hn) (nestingMembers_le_iff.1 (Nat.le_refl _) n hn)
  | _ => exact Nat.le_refl _

/-! ## Uniqueness -/

mutual
theorem Draft.ofJson_inj : (v : Json) → {w : Json} → ofJson v = ofJson w → v = w
  | .null, w, h | .bool _, w, h | .number _, w, h | .string _, w, h => by
    cases w <;> simp_all [ofJson]
  | .array items, w, h => by
    cases w with
    | array others =>
      simp only [ofJson, array.injEq, and_true] at h
      rw [ofItems_inj items h]
    | _ => simp [ofJson] at h
  | .object members, w, h => by
    cases w with
    | object others =>
      simp only [ofJson, object.injEq, and_true] at h
      rw [ofMembers_inj members h]
    | _ => simp [ofJson] at h

theorem Draft.ofItems_inj : (items : List Json) → {others : List Json} →
    ofItems items = ofItems others → items = others
  | [], others, h => by cases others <;> simp_all [ofItems]
  | v :: rest, others, h => by
    cases others with
    | nil => simp [ofItems] at h
    | cons w others =>
      simp only [ofItems, List.cons.injEq] at h
      rw [ofJson_inj v h.1, ofItems_inj rest h.2]

theorem Draft.ofMembers_inj : (members : List (String × Json)) → {others : List (String × Json)} →
    ofMembers members = ofMembers others → members = others
  | [], others, h => by cases others <;> simp_all [ofMembers]
  | (k, v) :: rest, others, h => by
    cases others with
    | nil => simp [ofMembers] at h
    | cons m others =>
      simp only [ofMembers, List.cons.injEq, Prod.mk.injEq] at h
      rw [h.1.1, ofJson_inj v h.1.2, ofMembers_inj rest h.2]
end

theorem Spells.unique {rest' : List Char} {v' : Json} (h : Spells ws cs v rest)
    (hrest : Ends v rest) (h' : Spells ws' cs v' rest') (hrest' : Ends v' rest') :
    v = v' ∧ rest = rest' := by
  have hread := readValue_of_spells _ _ h (.nil cs) hrest
    (Nat.lt_succ_of_le (Nat.le_max_left v.nesting v'.nesting)) (Nat.le_refl _)
  have hread' := readValue_of_spells _ _ h' (.nil cs) hrest'
    (Nat.lt_succ_of_le (Nat.le_max_right v.nesting v'.nesting)) (Nat.le_refl _)
  rw [hread, Prod.mk.injEq, Option.some_inj] at hread'
  exact ⟨ofJson_inj v hread'.1, hread'.2⟩

theorem Spells.mono (h : Spells ws cs v rest) (hrest : Ends v rest) : Spells true cs v rest := by
  have hread := readValue_of_spells _ _ h (.nil cs) hrest (Nat.lt_succ_self _) (Nat.le_refl _)
  obtain ⟨start, w, hb, hw, heq, -⟩ := readValue_sound _ (Nat.succ_pos _) hread
  rw [← hb.skipBlank hw.noBlank, skipBlank_of_noBlank h.noBlank, ← ofJson_inj v heq] at hw
  exact hw

theorem IsText.mono (h : IsText ws cs v) : IsText true cs v := by
  obtain ⟨start, stop, hb, hv, hend⟩ := h
  exact ⟨start, stop, hb.mono, hv.mono ((hend.numberEnd numberEnd_nil).ends v), hend.mono⟩

theorem IsText.unique (hu : IsText ws cs u) (hv : IsText ws' cs v) : u = v := by
  obtain ⟨start, stop, hb, hspells, hend⟩ := hu
  obtain ⟨start', stop', hb', hspells', hend'⟩ := hv
  have hstart : start = start' := by
    rw [← hb.skipBlank hspells.noBlank, hb'.skipBlank hspells'.noBlank]
  subst hstart
  exact (hspells.unique ((hend.numberEnd numberEnd_nil).ends u) hspells'
    ((hend'.numberEnd numberEnd_nil).ends v)).1

end SchemaCompiler.Json
