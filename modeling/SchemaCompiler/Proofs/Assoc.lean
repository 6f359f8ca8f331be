import SchemaCompiler.Assoc

/-!
# Look-ups in association lists

What a look-up gives in lists that are mapped, joined or written to.
-/
namespace SchemaCompiler.Assoc

variable {κ α β : Type} [BEq κ] {key other : κ} {xs : List (κ × α)} {v u : α} {e : κ × α}

theorem get?_append_of_some (h : get? key xs = some v) (ys : List (κ × α)) :
    get? key (xs ++ ys) = some v := by
  simp only [get?] at h ⊢
  rw [List.lookup_append, h]
  rfl

theorem get?_append_of_none (h : get? key xs = none) (ys : List (κ × α)) :
    get? key (xs ++ ys) = get? key ys := by
  simp only [get?] at h ⊢
  rw [List.lookup_append, h]
  rfl

variable [LawfulBEq κ]

theorem get?_cons (key k : κ) (v : α) (xs : List (κ × α)) :
    get? key ((k, v) :: xs) = if key == k then some v else get? key xs := by
  rw [get?, List.lookup_cons]
  cases key == k <;> rfl

theorem get?_map (f : κ → α → β) (key : κ) (xs : List (κ × α)) :
    get? key (xs.map fun e => (e.1, f e.1 e.2)) = (get? key xs).map (f key) := by
  induction xs with
  | nil => rfl
  | cons e rest ih =>
    obtain ⟨k, v⟩ := e
    by_cases h : key = k <;> simp [get?_cons, h, ih]

theorem get?_eq_none_iff : get? key xs = none ↔ key ∉ xs.map Prod.fst := by
  simp only [get?, List.lookup_eq_none_iff, List.mem_map, not_exists, not_and]
  constructor
  · intro h e he hk
    have := h e he
    simp [hk] at this
  · intro h e he
    simpa using fun hk => h e he hk.symm

theorem mem_of_get?_eq_some (h : get? key xs = some v) : (key, v) ∈ xs := by
  obtain ⟨l, r, he, -⟩ := List.lookup_eq_some_iff.1 h
  simp [he]

theorem mem_keys_of_get?_eq_some (h : get? key xs = some v) : key ∈ xs.map Prod.fst :=
  List.mem_map_of_mem (mem_of_get?_eq_some h)

theorem get?_eq_some_iff (h : (xs.map Prod.fst).Nodup) : get? key xs = some v ↔ (key, v) ∈ xs := by
  refine ⟨mem_of_get?_eq_some, fun hmem => ?_⟩
  induction xs with
  | nil => cases hmem
  | cons e rest ih =>
    obtain ⟨k, u⟩ := e
    rw [List.map_cons, List.nodup_cons] at h
    rcases List.mem_cons.1 hmem with heq | hrest
    · cases heq
      simp [get?]
    · have hne : key ≠ k := fun heq => h.1 (heq ▸ List.mem_map.2 ⟨_, hrest, rfl⟩)
      simp [get?_cons, hne, ih h.2 hrest]

theorem get?_of_sublist {ys : List (κ × α)} (hs : xs.Sublist ys) (h : (ys.map Prod.fst).Nodup)
    (hx : get? key xs = some v) : get? key ys = some v :=
  (get?_eq_some_iff h).2 (hs.subset (mem_of_get?_eq_some hx))

theorem insert_of_get?_eq_none (h : get? key xs = none) (v : α) :
    insert key v xs = xs ++ [(key, v)] := by
  induction xs with
  | nil => rfl
  | cons e rest ih =>
    obtain ⟨k, u⟩ := e
    by_cases hk : key = k
    · simp [get?_cons, hk] at h
    · simp [insert, Ne.symm hk, ih (by simpa [get?_cons, hk] using h)]

theorem map_insert {f : κ × α → β} (h : get? key xs = some u)
    (hf : f (key, v) = f (key, u)) : (insert key v xs).map f = xs.map f := by
  induction xs with
  | nil => cases h
  | cons e rest ih =>
    obtain ⟨k, w⟩ := e
    by_cases hk : key = k
    · subst hk
      obtain rfl : w = u := by simpa [get?] using h
      simp [insert, hf]
    · simp [insert, Ne.symm hk, ih (by simpa [get?_cons, hk] using h)]

theorem insert_eq_map (hd : (xs.map Prod.fst).Nodup) (h : get? key xs = some u) :
    insert key v xs = xs.map fun e => if e.1 == key then (e.1, v) else e := by
  induction xs with
  | nil => cases h
  | cons e rest ih =>
    obtain ⟨k, w⟩ := e
    rw [List.map_cons, List.nodup_cons] at hd
    by_cases hk : key = k
    · subst hk
      have hrest : (rest.map fun e => if e.1 == key then (e.1, v) else e) = rest := by
        refine (List.map_congr_left fun e he => ?_).trans (List.map_id rest)
        have hne : (e.1 == key) = false := by
          rw [beq_eq_false_iff_ne]
          exact fun heq => hd.1 (List.mem_map.2 ⟨e, he, heq⟩)
        simp [hne]
      simp [insert, hrest]
    · simp [insert, Ne.symm hk, ih hd.2 (by simpa [get?_cons, hk] using h)]

theorem ofList_of_nodup (h : (xs.map Prod.fst).Nodup) : ofList xs = xs := by
  have hfold : ∀ ys : List (κ × α), ((ys ++ xs).map Prod.fst).Nodup →
      xs.foldl (fun acc e => insert e.1 e.2 acc) ys = ys ++ xs := by
    clear h
    induction xs with
    | nil => simp
    | cons e rest ih =>
      intro ys hys
      have hnew : get? e.1 ys = none := by
        rw [get?_eq_none_iff]
        simp only [List.map_append, List.map_cons, List.nodup_append, List.mem_cons] at hys
        exact fun hmem => hys.2.2 e.1 hmem e.1 (.inl rfl) rfl
      rw [List.foldl_cons, insert_of_get?_eq_none hnew, ih _ (by simpa using hys)]
      simp
  exact hfold [] h

theorem mem_insert (h : e ∈ insert key v xs) : e ∈ xs ∨ e = (key, v) := by
  induction xs with
  | nil => exact .inr (List.mem_singleton.1 h)
  | cons x rest ih =>
    unfold insert at h
    split at h
    · rename_i hk
      rw [← eq_of_beq hk]
      rcases List.mem_cons.1 h with h | h
      · exact .inr h
      · exact .inl (List.mem_cons_of_mem _ h)
    · rcases List.mem_cons.1 h with h | h
      · exact .inl (h ▸ List.mem_cons_self ..)
      · exact (ih h).imp_left (List.mem_cons_of_mem _)

theorem get?_insert (key other : κ) (v : α) (xs : List (κ × α)) [Decidable (other = key)] :
    get? other (insert key v xs) = if other = key then some v else get? other xs := by
  split
  · rename_i h
    rw [h, get?_insert_self]
  · rename_i h
    exact get?_insert_of_ne h v xs

theorem mem_keys_insert {other : κ} :
    other ∈ (insert key v xs).map Prod.fst ↔ other ∈ xs.map Prod.fst ∨ other = key := by
  cases hget : get? key xs with
  | none => simp [insert_of_get?_eq_none hget]
  | some u =>
    have hkeys : (insert key v xs).map Prod.fst = xs.map Prod.fst := map_insert hget rfl
    rw [hkeys]
    refine ⟨.inl, fun h => h.elim id ?_⟩
    rintro rfl
    exact mem_keys_of_get?_eq_some hget

theorem nodup_concat {ks : List α} {key : α} (h : ks.Nodup) (hk : key ∉ ks) :
    (ks ++ [key]).Nodup := by
  refine List.nodup_append.2 ⟨h, by simp, fun a ha b hb => ?_⟩
  rw [List.mem_singleton.1 hb]
  exact fun heq => hk (heq ▸ ha)

theorem nodup_insert (h : (xs.map Prod.fst).Nodup) (key : κ) (v : α) :
    ((insert key v xs).map Prod.fst).Nodup := by
  cases hget : get? key xs with
  | none =>
    rw [insert_of_get?_eq_none hget, List.map_append]
    exact nodup_concat h (get?_eq_none_iff.1 hget)
  | some u =>
    have hkeys : (insert key v xs).map Prod.fst = xs.map Prod.fst := map_insert hget rfl
    rwa [hkeys]

theorem nodup_foldl_insert (ys : List (κ × α)) (h : (xs.map Prod.fst).Nodup) :
    ((ys.foldl (fun acc e => insert e.1 e.2 acc) xs).map Prod.fst).Nodup := by
  induction ys generalizing xs with
  | nil => exact h
  | cons e rest ih => exact ih (nodup_insert h e.1 e.2)

theorem nodup_ofList (xs : List (κ × α)) : ((ofList xs).map Prod.fst).Nodup :=
  nodup_foldl_insert xs List.nodup_nil

theorem mem_of_mem_ofList (h : e ∈ ofList xs) : e ∈ xs := by
  have hfold : ∀ ys zs : List (κ × α), e ∈ ys.foldl (fun acc e => insert e.1 e.2 acc) zs →
      e ∈ zs ∨ e ∈ ys := by
    intro ys
    induction ys with
    | nil => exact fun zs h => .inl h
    | cons y rest ih =>
      intro zs h
      rcases ih _ h with h | h
      · exact (mem_insert h).imp_right fun he => by simp [he]
      · exact .inr (List.mem_cons_of_mem _ h)
  exact (hfold xs [] h).resolve_left List.not_mem_nil

end SchemaCompiler.Assoc
