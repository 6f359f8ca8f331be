import SchemaCompiler.Proofs.Planning.Orderly

/-!
# Taking up documents

A document is walked, and the URIs that are declared in it are added behind those that are known. A
URI that is known is never made to lead elsewhere. Whether or not the walk comes to its end, what
was known before is still there and comes first.
-/
namespace SchemaCompiler.Resources

variable {α β : Type} {r r' r'' : Resources} {uri : String} {place : Location}

def uris (r : Resources) : List String := r.entries.map Prod.fst

/-- Known places with one URI each entry, and with anchors to override only among the known URIs. -/
structure Sound (r : Resources) : Prop where
  nodup : r.uris.Nodup
  known : ∀ uri ∈ r.dynamic, uri ∈ r.uris

/-- Places and anchors are added behind the known ones. -/
structure Gains (r r' : Resources) : Prop where
  entries : r.entries <+: r'.entries
  dynamic : r.dynamic <+: r'.dynamic

theorem sound_empty : Sound empty := ⟨List.nodup_nil, nofun⟩

theorem Gains.refl (r : Resources) : Gains r r := ⟨List.prefix_refl _, List.prefix_refl _⟩

theorem Gains.trans (h : Gains r r') (h' : Gains r' r'') : Gains r r'' :=
  ⟨h.entries.trans h'.entries, h.dynamic.trans h'.dynamic⟩

theorem Gains.get? (h : Gains r r')
    (hp : Assoc.get? uri r.entries = some place) : Assoc.get? uri r'.entries = some place := by
  obtain ⟨more, hmore⟩ := h.entries
  rw [← hmore]
  exact Assoc.get?_append_of_some hp more

/-! ## One step -/

def Adds (x : Indexing α) : Prop :=
  ∀ r, r.Sound → (ran x r).2.Sound ∧ Gains r (ran x r).2 ∧ SlotFree (ran x r).1

namespace Adds

theorem pure (a : α) : Adds (Pure.pure a) := fun r hr => ⟨hr, .refl r, .ok a⟩

theorem throw {e : CompileError} (h : ¬ e.AboutSlot) : Adds (MonadExcept.throw e : Indexing α) :=
  fun r hr => ⟨hr, .refl r, .error h⟩

theorem bind {x : Indexing α} {f : α → Indexing β} (hx : Adds x) (hf : ∀ a, Adds (f a)) :
    Adds (x >>= f) := by
  intro r hr
  obtain ⟨hs, hg, he⟩ := hx r hr
  rw [ran_bind]
  rcases hran : ran x r with ⟨e | a, r'⟩
  · rw [hran] at hs hg he
    exact ⟨hs, hg, .error (he e rfl)⟩
  · rw [hran] at hs hg
    obtain ⟨hs', hg', he'⟩ := hf a r' hs
    exact ⟨hs', hg.trans hg', he'⟩

end Adds

/-- Adding a URI for a place: it is known already, of a place of the same key or of another one, or
it is new. -/
theorem ran_register (uri : String) (place : Location) (r : Resources) :
    ran (register uri place) r =
      match Assoc.get? uri r.entries with
      | some known =>
        if known.key = place.key then (.ok (), r)
        else (.error (.invalidSchema place.key (.alreadyIdentifies uri known.key)), r)
      | none => (.ok (), { r with entries := r.entries ++ [(uri, place)] }) := by
  show ran (get >>= _) r = _
  rw [ran_bind, ran_get, follow_ok]
  cases Assoc.get? uri r.entries with
  | none => rfl
  | some known => by_cases h : known.key = place.key <;> simp [h]

theorem adds_register (uri : String) (place : Location) : Adds (register uri place) := by
  intro r hr
  rw [ran_register]
  cases hget : Assoc.get? uri r.entries with
  | some known =>
    dsimp only
    split
    · exact ⟨hr, .refl r, .ok _⟩
    · exact ⟨hr, .refl r, .error id⟩
  | none =>
    refine ⟨⟨?_, fun u hu => ?_⟩, ⟨List.prefix_append _ _, List.prefix_refl _⟩, .ok _⟩
    · rw [uris, List.map_append]
      exact Assoc.nodup_concat hr.nodup (Assoc.get?_eq_none_iff.1 hget)
    · simp only [uris, List.map_append]
      exact List.mem_append_left _ (hr.known u hu)

theorem mem_uris_of_register (h : ran (register uri place) r = (.ok (), r')) : uri ∈ r'.uris := by
  rw [ran_register] at h
  cases hget : Assoc.get? uri r.entries with
  | some known =>
    rw [hget] at h
    dsimp only at h
    split at h
    · cases h
      exact Assoc.mem_keys_of_get?_eq_some hget
    · cases h
  | none =>
    rw [hget] at h
    cases h
    simp [uris]

theorem adds_dynamic (uri : String) (place : Location) (result : α) :
    Adds (do
      register uri place
      modify fun r => { r with dynamic := r.dynamic ++ [uri] }
      return result) := by
  intro r hr
  obtain ⟨hs, hg, he⟩ := adds_register uri place r hr
  rw [ran_bind]
  rcases hran : ran _ r with ⟨e | u, r'⟩
  · rw [hran] at hs hg he
    exact ⟨hs, hg, .error (he e rfl)⟩
  · have hmem := mem_uris_of_register hran
    rw [hran] at hs hg
    refine ⟨⟨hs.nodup, fun u hu => ?_⟩, ⟨hg.entries, hg.dynamic.trans (List.prefix_append _ _)⟩, .ok _⟩
    rcases List.mem_append.1 hu with hu | hu
    · exact hs.known u hu
    · rw [List.mem_singleton.1 hu]
      exact hmem

theorem adds_declare (at_ : Url → Location) (pointer : String) (base : Url)
    (members : List (String × Json)) : Adds (declare at_ pointer base members) := by
  unfold declare
  dsimp only
  -- first the base that is declared, and then, whichever it is, the two anchors
  split
  case' h_2 =>
    split
    case' h_1 => refine (adds_register _ _).bind fun _ => (Adds.pure base).bind fun base => ?_
    case' h_2 =>
      split
      case' h_1 => refine (Adds.throw id).bind fun base => ?_
      case' h_2 => refine (adds_register _ _).bind fun _ => (Adds.pure _).bind fun base => ?_
  all_goals
    split
    case' h_2 => refine (adds_register _ _).bind fun _ => ?_
    all_goals
      split
      · exact .pure _
      · exact adds_dynamic _ _ _

/-! ## A whole document -/

mutual
theorem adds_walk (root : Json) (document pointer : String) (base : Url) :
    (v : Json) → Adds (walk root document pointer base v)
  | .object members => by
    exact (adds_declare _ _ _ _).bind fun base => adds_walkMembers root document pointer base members
  | .array items => by
    exact adds_walkItems root document pointer base 0 items
  | .null => by exact .pure _
  | .bool _ | .number _ | .string _ => by exact .pure _

theorem adds_walkMembers (root : Json) (document pointer : String) (base : Url) :
    (members : List (String × Json)) → Adds (walkMembers root document pointer base members)
  | [] => by exact .pure _
  | (key, v) :: rest => by
    have hrest := adds_walkMembers root document pointer base rest
    rw [walkMembers]
    split
    · exact (adds_walk root document _ base v).bind fun _ => hrest
    · exact hrest

theorem adds_walkItems (root : Json) (document pointer : String) (base : Url) :
    (i : Nat) → (items : List Json) → Adds (walkItems root document pointer base i items)
  | _, [] => by exact .pure _
  | i, v :: rest => by
    have hrest := adds_walkItems root document pointer base (i + 1) rest
    exact (adds_walk root document _ base v).bind fun _ => hrest
end

theorem adds_addDocument (root : Json) (uri : Url) : Adds (addDocument root uri) :=
  (adds_register _ _).bind fun _ => (adds_walk _ _ _ _ root).bind fun _ => .pure _

/-- Where the URI of a document leads once the document is taken up: where it led before, if it was
known, and to the document otherwise. -/
theorem get?_addDocument {root : Json} {url : Url} (hr : r.Sound)
    (h : ran (addDocument root url) r = (.ok uri, r')) :
    uri = url.withoutFragment.toText ∧
      Assoc.get? uri r'.entries =
        some ((Assoc.get? uri r.entries).getD ⟨root, uri, "", url.withoutFragment⟩) ∧
      ∀ known, Assoc.get? uri r.entries = some known → known.key = uri ++ "#" := by
  -- the walk changes nothing about what is known when it starts
  have hwalk : ∀ {document : String} {r₁ : Resources}, r₁.Sound →
      ran (do walk root document "" url.withoutFragment root; return document) r₁ = (.ok uri, r') →
      uri = document ∧ Gains r₁ r' := by
    intro document r₁ hr₁ hran
    have hgains := ((adds_walk root document "" url.withoutFragment root).bind
      fun _ => .pure document) r₁ hr₁
    rw [hran] at hgains
    rw [ran_bind] at hran
    rcases hw : ran _ r₁ with ⟨e | u, r₂⟩
    · rw [hw] at hran
      cases hran
    · rw [hw] at hran
      cases hran
      exact ⟨rfl, hgains.2.1⟩
  unfold addDocument at h
  rw [ran_bind, ran_register] at h
  have hsound := (adds_register url.withoutFragment.toText
    ⟨root, url.withoutFragment.toText, "", url.withoutFragment⟩ r hr).1
  rw [ran_register] at hsound
  cases hget : Assoc.get? url.withoutFragment.toText r.entries with
  | some known =>
    rw [hget] at h
    dsimp only at h
    split at h
    · rename_i hkey
      obtain ⟨rfl, hgains⟩ := hwalk hr h
      refine ⟨rfl, ?_, fun known' hknown => ?_⟩
      · rw [hget]
        exact hgains.get? hget
      · obtain rfl := Option.some.inj (hget.symm.trans hknown)
        rw [hkey, Location.key, String.append_empty]
    · cases h
  | none =>
    rw [hget] at h hsound
    obtain ⟨rfl, hgains⟩ := hwalk hsound h
    refine ⟨rfl, ?_, fun known hknown => ?_⟩
    · rw [hget]
      refine hgains.get? ?_
      rw [Assoc.get?_append_of_none hget]
      simp [Assoc.get?]
    · rw [hget] at hknown
      cases hknown

/-! ## Forgetting -/

/-- What is left when what was added is forgotten: the places of before, and the anchors of before
with those of the new ones that were known. -/
theorem rollback_of_gains (hr : r.Sound) (hr' : r'.Sound) (hg : Gains r r') :
    ∃ extra, r'.rollback r.entries.length = ⟨r.entries, r.dynamic ++ extra⟩ ∧
      ∀ uri ∈ extra, uri ∈ r.uris := by
  obtain ⟨more, hmore⟩ := hg.entries
  obtain ⟨anchors, hanchors⟩ := hg.dynamic
  have huris : r'.uris = r.uris ++ more.map Prod.fst := by
    rw [uris, ← hmore, List.map_append]
    rfl
  have hdisjoint : ∀ uri ∈ r.uris, uri ∉ more.map Prod.fst := by
    have hnodup := hr'.nodup
    rw [huris, List.nodup_append] at hnodup
    exact fun uri hu hmem => hnodup.2.2 uri hu uri hmem rfl
  have hkeep : r.dynamic.filter (fun uri => !(more.map Prod.fst).contains uri) = r.dynamic := by
    refine List.filter_eq_self.2 fun uri hu => ?_
    simpa using hdisjoint uri (hr.known uri hu)
  refine ⟨anchors.filter fun uri => !(more.map Prod.fst).contains uri, ?_, fun uri hu => ?_⟩
  · unfold rollback
    dsimp only
    rw [← hmore, List.drop_left, List.take_left, ← hanchors, List.filter_append, hkeep]
  · obtain ⟨hmem, hnew⟩ := List.mem_filter.1 hu
    have hknown := hr'.known uri (hanchors ▸ List.mem_append_right _ hmem)
    rw [huris, List.mem_append] at hknown
    exact hknown.resolve_right (by simpa using hnew)

end SchemaCompiler.Resources
