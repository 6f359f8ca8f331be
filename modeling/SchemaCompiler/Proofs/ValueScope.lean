import Mathlib.Data.List.Nodup
import SchemaCompiler.Proofs.Names
import SchemaCompiler.Proofs.Program.ReadBack
import SchemaCompiler.Scope

/-!
# Histories of a value scope

Whatever a value scope was asked for, what it holds is found by its name and by what it is recognised
by, and a name that is not that of a held value was never given before. Going back to a checkpoint
restores what was held there, as long as the scope did not go back further in between.
-/
namespace SchemaCompiler

/-- What a value is recognised by that is asked for by a stem. -/
abbrev Descriptor.mark (stem : Stem) (d : Descriptor) : Option (String × Recognition) :=
  d.recognition.map fun r => (stem.text, r)

namespace ValueScope

/-- A value that is held already is given again, any other is held from now on. -/
theorem value_cases (stem : Stem) (d : Descriptor) (scope : ValueScope) :
    (∃ e ∈ scope.entries, e.recognition = d.mark stem ∧
      e.recognition ≠ none ∧ scope.value stem d = (e.name, scope)) ∨
    (∀ e ∈ scope.entries, e.recognition = d.mark stem →
      e.recognition = none) ∧
    scope.value stem d = ((scope.names.next stem).1,
      { scope with
        names := (scope.names.next stem).2
        entries := scope.entries ++ [⟨(scope.names.next stem).1,
          d.mark stem, d.live, d.stored⟩] }) := by
  unfold value Descriptor.mark
  cases hm : d.recognition.map fun r => (stem.text, r) with
  | none => exact .inr ⟨fun e _ he => he, rfl⟩
  | some mark =>
    simp only [recognise]
    cases hfind : scope.entries.find? fun e => e.recognition == some mark with
    | none =>
      refine .inr ⟨fun e he hrec => ?_, rfl⟩
      exact absurd hrec (by simpa using List.find?_eq_none.1 hfind e he)
    | some e =>
      have hrec : e.recognition = some mark := by simpa using List.find?_some hfind
      exact .inl ⟨e, List.mem_of_find?_eq_some hfind, hrec, by simp [hrec], rfl⟩

/-- Requests that lead from one scope to another, with the names they gave, the latest first. None
of them goes back to fewer than `floor` entries. -/
inductive History (floor : Nat) (base : ValueScope) : List Name → ValueScope → Prop
  | start : History floor base [] base
  | name {given scope} (stem : Stem) (h : History floor base given scope) :
      History floor base ((scope.fresh stem).1 :: given) (scope.fresh stem).2
  | value {given scope} (stem : Stem) (d : Descriptor) (h : History floor base given scope) :
      History floor base ((scope.value stem d).1 :: given) (scope.value stem d).2
  | reserve {given scope} (key : String) (h : History floor base given scope) :
      History floor base ((scope.reserve key).2.1 :: given) (scope.reserve key).2.2
  | rollback {given scope later} (mark : Checkpoint) (hfloor : floor ≤ mark.entries)
      (h : History floor base given scope) (hr : scope.rollbackTo mark = .ok later) :
      History floor base given later

variable {floor : Nat} {base scope later : ValueScope} {given : List Name}

/-- What is true of a scope that gave some names. -/
structure Sound (given : List Name) (scope : ValueScope) : Prop where
  names : (scope.entries.map Entry.name).Nodup
  marks : ∀ e ∈ scope.entries, ∀ other ∈ scope.entries, ∀ m,
    e.recognition = some m → other.recognition = some m → e = other
  stored : ∀ e ∈ scope.entries, ∀ text v, e.recognition = some (text, .stored v) → e.stored = some v
  entries : ∀ e ∈ scope.entries, e.name ∈ given
  given : ∀ n ∈ given, scope.names.Given n

theorem sound_empty : Sound [] empty := by
  constructor <;> simp [empty]

theorem find?_eq_some_iff {α : Type} {p : α → Bool} {xs : List α} {x : α}
    (h : ∀ y ∈ xs, ∀ z ∈ xs, p y → p z → y = z) : xs.find? p = some x ↔ x ∈ xs ∧ p x := by
  constructor
  · intro hx
    exact ⟨List.mem_of_find?_eq_some hx, List.find?_some hx⟩
  · rintro ⟨hx, hp⟩
    obtain ⟨y, hy⟩ := Option.isSome_iff_exists.1 (List.find?_isSome.2 ⟨x, hx, hp⟩)
    rw [hy, h y (List.mem_of_find?_eq_some hy) x hx (List.find?_some hy) hp]

namespace Sound

variable (h : Sound given scope)

include h

theorem recognise_iff {m : String × Recognition} {e : Entry} :
    scope.recognise (some m) = some e ↔ e ∈ scope.entries ∧ e.recognition = some m := by
  rw [recognise, find?_eq_some_iff, beq_iff_eq]
  intro y hy z hz hym hzm
  exact h.marks y hy z hz m (beq_iff_eq.1 hym) (beq_iff_eq.1 hzm)

theorem not_mem_fresh (stem : Stem) : (scope.fresh stem).1 ∉ given :=
  fun hn => Counters.not_given_next _ stem (h.given _ hn)

theorem fresh (stem : Stem) :
    Sound ((scope.fresh stem).1 :: given) (scope.fresh stem).2 where
  names := h.names
  marks := h.marks
  stored := h.stored
  entries e he := List.mem_cons_of_mem _ (h.entries e he)
  given := Counters.given_cons_next h.given stem

theorem value (stem : Stem) (d : Descriptor) :
    Sound ((scope.value stem d).1 :: given) (scope.value stem d).2 := by
  rcases value_cases stem d scope with ⟨e, he, -, -, hv⟩ | ⟨hnew, hv⟩ <;> rw [hv]
  · refine ⟨h.names, h.marks, h.stored, fun e he => .tail _ (h.entries e he), ?_⟩
    exact List.forall_mem_cons.2 ⟨h.given _ (h.entries e he), h.given⟩
  · have hf := h.fresh stem
    have hapart {e : Entry} {m : String × Recognition} (he : e ∈ scope.entries)
        (hm : e.recognition = some m) : d.mark stem ≠ some m := by
      intro hd
      cases hm.symm.trans (hnew e he (hm.trans hd.symm))
    refine ⟨?_, ?_, ?_, ?_, hf.given⟩
    · rw [List.map_append]
      refine Assoc.nodup_concat h.names fun hn => ?_
      obtain ⟨e, he, hname⟩ := List.mem_map.1 hn
      have hgiven := h.entries e he
      rw [hname] at hgiven
      exact h.not_mem_fresh stem hgiven
    · intro e he other hother m hm hm'
      rcases List.mem_append.1 he with he | he <;> rcases List.mem_append.1 hother with ho | ho
      · exact h.marks e he other ho m hm hm'
      · cases List.mem_singleton.1 ho
        exact absurd hm' (hapart he hm)
      · cases List.mem_singleton.1 he
        exact absurd hm (hapart ho hm')
      · rw [List.mem_singleton.1 he, List.mem_singleton.1 ho]
    · intro e he text v hm
      rcases List.mem_append.1 he with he | he
      · exact h.stored e he text v hm
      · cases List.mem_singleton.1 he
        obtain ⟨r, hr, ⟨⟩⟩ := Option.map_eq_some_iff.1 hm
        unfold Descriptor.recognition at hr
        split at hr <;> simp_all
    · intro e he
      rcases List.mem_append.1 he with he | he
      · exact hf.entries e he
      · rw [List.mem_singleton.1 he]
        exact List.mem_cons_self

theorem rollback (mark : Checkpoint) : Sound given (scope.rollback mark) := by
  have hmem {e : Entry} (he : e ∈ (scope.rollback mark).entries) : e ∈ scope.entries :=
    List.mem_of_mem_take he
  refine ⟨h.names.sublist ((List.take_sublist _ _).map _), ?_, ?_, ?_, h.given⟩
  · exact fun e he other ho => h.marks e (hmem he) other (hmem ho)
  · exact fun e he => h.stored e (hmem he)
  · exact fun e he => h.entries e (hmem he)

end Sound

theorem rollbackTo_eq_ok {mark : Checkpoint} (h : scope.rollbackTo mark = .ok later) :
    mark.entries ≤ scope.entries.length ∧ later = scope.rollback mark := by
  unfold rollbackTo at h
  split at h
  · next hle => exact ⟨hle, (Except.ok.inj h).symm⟩
  · cases h

theorem History.sound (h : History floor empty given scope) : Sound given scope := by
  induction h with
  | start => exact sound_empty
  | name stem _ ih => exact ih.fresh stem
  | value stem d _ ih => exact ih.value stem d
  | @reserve _ scope key _ ih =>
    have hslots : Sound _ { scope with slots := scope.slots ++ [none] } :=
      ⟨ih.1, ih.2, ih.3, ih.4, ih.5⟩
    exact hslots.value wrapperStem _
  | rollback mark _ _ hr ih =>
    rw [(rollbackTo_eq_ok hr).2]
    exact ih.rollback mark

theorem prefix_value (scope : ValueScope) (stem : Stem) (d : Descriptor) :
    scope.entries <+: (scope.value stem d).2.entries := by
  rcases value_cases stem d scope with ⟨e, -, -, -, hv⟩ | ⟨-, hv⟩
  · exact hv ▸ List.prefix_rfl
  · exact hv ▸ List.prefix_append _ _

/-- What was held at the start stays, unless the scope goes back further. -/
theorem History.prefix (h : History base.entries.length base given scope) :
    base.entries <+: scope.entries := by
  induction h with
  | start => exact List.prefix_rfl
  | name _ _ ih => exact ih
  | value stem d _ ih => exact ih.trans (prefix_value _ stem d)
  | @reserve _ scope _ _ ih =>
    exact ih.trans (prefix_value { scope with slots := scope.slots ++ [none] } wrapperStem _)
  | rollback mark hfloor _ hr ih =>
    rw [(rollbackTo_eq_ok hr).2]
    refine List.prefix_of_prefix_length_le ih (List.take_prefix _ _) ?_
    exact (le_min hfloor ih.length_le).trans_eq List.length_take.symm

theorem History.restored (h : History base.entries.length base given scope) :
    ∃ back, scope.rollbackTo base.checkpoint = .ok back ∧ back.entries = base.entries :=
  ⟨_, if_pos h.prefix.length_le, (List.prefix_iff_eq_take.1 h.prefix).symm⟩

/-- A scope that holds one value. -/
def holding (v : Json) : ValueScope := (empty.value (.of "schema") (.json v)).2

/-- The names taken from the counters of a function and from a value scope, the latest first. A
value that is held already takes none. -/
inductive Allocations : List Name → List Name → Counters → ValueScope → Prop
  | start : Allocations [] [] .empty empty
  | inner {inner outer c scope stem} (text : String) (h : Allocations inner outer c scope)
      (hs : LocalStem.ofString text (c.count text) = .ok stem) :
      Allocations ((c.next stem.toStem).1 :: inner) outer (c.next stem.toStem).2 scope
  | function {inner outer c scope} (stem : Stem) (h : Allocations inner outer c scope)
      (hs : stem.isReserved) :
      Allocations inner ((scope.fresh stem).1 :: outer) c (scope.fresh stem).2
  | value {inner outer c scope} (stem : Stem) (d : Descriptor)
      (h : Allocations inner outer c scope) (hs : stem.isReserved)
      (hnew : scope.recognise (d.mark stem) = none) :
      Allocations inner ((scope.value stem d).1 :: outer) c (scope.value stem d).2
  | slots {inner outer c scope} (slots : List (Option Name))
      (h : Allocations inner outer c scope) :
      Allocations inner outer c { scope with slots := slots }
  | rollback {inner outer c scope} (mark : Checkpoint) (h : Allocations inner outer c scope) :
      Allocations inner outer c (scope.rollback mark)

structure Apart (inner outer : List Name) (c : Counters) (scope : ValueScope) : Prop where
  distinct : inner.Nodup ∧ outer.Nodup
  given : ∀ n ∈ inner, c.Given n
  sound : Sound outer scope
  inner : ∀ n ∈ inner, ¬ n.Reserved
  outer : ∀ n ∈ outer, n.Reserved

/-- A new name of the program is told from the others by its stem or its number. -/
theorem Apart.cons {inner outer : List Name} {c : Counters} {stem : Stem}
    (h : Apart inner outer c scope) (hs : stem.isReserved)
    (hl : Sound ((scope.fresh stem).1 :: outer) later) :
    Apart inner ((scope.fresh stem).1 :: outer) c later :=
  ⟨⟨h.distinct.1, .cons (h.sound.not_mem_fresh stem) h.distinct.2⟩, h.given, hl, h.inner,
    List.forall_mem_cons.2 ⟨⟨stem, _, hs, rfl⟩, h.outer⟩⟩

theorem Allocations.apart {inner outer : List Name} {c : Counters}
    (h : Allocations inner outer c scope) : Apart inner outer c scope := by
  induction h with
  | start => exact ⟨⟨.nil, .nil⟩, nofun, sound_empty, nofun, nofun⟩
  | @inner inner _ c _ stem _ _ _ ih =>
    have hnew : (c.next stem.toStem).1 ∉ inner := fun hn => c.not_given_next _ (ih.given _ hn)
    refine ⟨⟨.cons hnew ih.distinct.1, ih.distinct.2⟩, Counters.given_cons_next ih.given _,
      ih.sound, ?_, ih.outer⟩
    exact List.forall_mem_cons.2 ⟨Name.not_reserved_of_local stem _, ih.inner⟩
  | function stem _ hs ih => exact ih.cons hs (ih.sound.fresh stem)
  | @value _ _ _ scope stem d _ hs hnew ih =>
    have hsound := ih.sound.value stem d
    have hname : (scope.value stem d).1 = (scope.fresh stem).1 := by
      simp only [ValueScope.value, hnew]
    rw [hname] at hsound ⊢
    exact ih.cons hs hsound
  | slots _ _ ih => exact { ih with sound := ⟨ih.3.1, ih.3.2, ih.3.3, ih.3.4, ih.3.5⟩ }
  | rollback mark _ ih => exact { ih with sound := ih.sound.rollback mark }

/-- All names taken are distinct, inside a function and in its program, and none is that of a
parameter. A value that is held already is given by one of them, and takes no other. -/
theorem allocations_apart {inner outer : List Name} {c : Counters}
    (h : Allocations inner outer c scope) :
    (inner ++ outer).Nodup ∧
    (∀ n ∈ inner ++ outer, isName n.text = true ∧
      n.text ∉ ["data", "instancePath", "rootData", "json", "pos"]) ∧
    ∀ stem d e, scope.recognise (d.mark stem) = some e →
      e.name ∈ outer ∧ scope.value stem d = (e.name, scope) := by
  have ha := h.apart
  refine ⟨?_, fun n hn => ⟨n.valid, fun ht => ?_⟩, fun stem d e he => ⟨?_, ?_⟩⟩
  · refine List.nodup_append.2 ⟨ha.distinct.1, ha.distinct.2, ?_⟩
    rintro n hi _ ho rfl
    exact ha.inner n hi (ha.outer n ho)
  · have hgiven : ∃ counters : Counters, counters.Given n := by
      rcases List.mem_append.1 hn with hn | hn
      · exact ⟨c, ha.given n hn⟩
      · exact ⟨_, ha.sound.given n hn⟩
    obtain ⟨_, stem, k, hname, -⟩ := hgiven
    exact Stem.ne_name ((by decide : ∀ t ∈ ["data", "instancePath", "rootData", "json", "pos"],
      endsInDigit t = false) _ ht) stem k hname
  · cases hm : d.mark stem with
    | none => simp [hm, recognise] at he
    | some m => exact ha.sound.entries e (ha.sound.recognise_iff.1 (hm ▸ he)).1
  · simp only [value, he]

theorem allocations_apart_data :
    ∃ c, Allocations [(.of "data" : Stem).name 1, (.of "data" : Stem).name 0]
      [(.of "schema" : Stem).name 0] c (holding .null) ∧
      ([(.of "data" : Stem).name 1, (.of "data" : Stem).name 0] ++
        [(.of "schema" : Stem).name 0]).Nodup :=
  have h := .inner "data" (.inner "data" (.value (.of "schema") (.json .null) .start rfl rfl) rfl)
    rfl
  ⟨_, h, (allocations_apart h).1⟩

end ValueScope
end SchemaCompiler
