import SchemaCompiler.Proofs.Url.Percent
import SchemaCompiler.Resources

/-!
# Pointers as fragments

A reference to a place of a document, in which the pointer to the place is encoded in any way, is
resolved to the place.
-/
namespace SchemaCompiler

namespace Json.Pointer

def escapeTilde (c : Char) : List Char := if c = '~' then ['~', '0'] else [c]

theorem unescapeSlash_escapeChar (cs : List Char) :
    unescapeSlash (cs.flatMap escapeChar) = cs.flatMap escapeTilde := by
  induction cs with
  | nil => rfl
  | cons c cs ih =>
    rw [List.flatMap_cons, List.flatMap_cons, escapeChar, escapeTilde, ← ih]
    split
    · simp [unescapeSlash]
    split
    · simp [unescapeSlash, *]
    · simp [unescapeSlash, *]

theorem unescapeTilde_escapeTilde (cs : List Char) :
    unescapeTilde (cs.flatMap escapeTilde) = cs := by
  induction cs with
  | nil => rfl
  | cons c cs ih =>
    rw [List.flatMap_cons, escapeTilde]
    split
    · simp [unescapeTilde, *]
    · simp [unescapeTilde, *]

theorem unescape_escape (token : String) : unescape (escape token) = token := by
  simp [unescape, escape, unescapeSlash_escapeChar, unescapeTilde_escapeTilde]

end Json.Pointer

namespace Url

variable {cs : List Char} {t : String}

theorem exists_join (base : Url) (ht : trimmed ("#" ++ t) = '#' :: cs) :
    ∃ target, base.join ("#" ++ t) = .ok target ∧
      target.fragment = some (String.ofList (Url.encode inFragmentSet cs)) ∧
      target.withoutFragment.toText = base.withoutFragment.toText := by
  have hread : readFrom (some base.parts) ("#" ++ t) =
      .ok { base.parts with fragment := some (Url.encode inFragmentSet cs) } := by
    simp [readFrom, ht, splitScheme, splitFragment, upTo]
  unfold join
  split
  · rename_i parts h
    cases h.symm.trans hread
    exact ⟨_, rfl, rfl, rfl⟩
  · rename_i h
    cases h.symm.trans hread

end Url

namespace Resources

open Json.Pointer in
/-- Escaping and encoding are undone, so that a place of a document is found by its pointer,
whichever of the bytes of the pointer are encoded. -/
theorem resolve_fragment :
    (∀ token : String, unescape (escape token) = token) ∧
    (∀ s t : String, Url.Encodes t.toList (Text.Utf8.encode s.toList) → Url.decode t = s) ∧
    ∀ (r : Resources) (base inner : Url) (root v : Json) (document pointer t : String),
      Assoc.get? base.withoutFragment.toText r.entries = some ⟨root, document, "", inner⟩ →
      Json.Pointer.get? pointer root = some v →
      Url.Encodes t.toList (Text.Utf8.encode pointer.toList) →
      Url.trimmed ("#" ++ t) = '#' :: t.toList →
      ∃ inner', r.resolve ("#" ++ t) base = .ok ⟨root, document, pointer, inner'⟩ := by
  refine ⟨unescape_escape, fun s t => Url.decode_of_encodes, ?_⟩
  intro r base inner root v document pointer t hdocument hnode hencodes htrimmed
  obtain ⟨target, hjoin, hfragment, htext⟩ := base.exists_join htrimmed
  have hdecode : Url.decode (String.ofList _) = pointer :=
    Url.decode_of_encodes (by simpa using hencodes.encode)
  unfold resolve
  simp only [hjoin, hfragment, Option.map_some, hdecode, htext, hdocument]
  unfold Json.Pointer.get? at hnode
  split at hnode
  · rename_i hempty
    rw [String.isEmpty_iff.1 hempty]
    exact ⟨_, rfl⟩
  · rename_i hempty
    split at hnode
    · rename_i hslash
      simp [hempty, hslash, Json.Pointer.get?, hnode]
    · cases hnode

theorem resolve_fragment_of_percent :
    ∃ (r : Resources) (base inner : Url), r.resolve "#/%25%c3%A9" base =
      .ok ⟨.object [("%é", .null)], "", "/%é", inner⟩ := by
  have hread : (Url.read "a:b").toBool = true := by decide +kernel
  cases hurl : Url.read "a:b" with
  | error fault => simp [hurl, Except.toBool] at hread
  | ok url =>
    let root : Json := .object [("%é", .null)]
    let r : Resources := ⟨[(url.withoutFragment.toText, ⟨root, "", "", url⟩)], []⟩
    have hget : Assoc.get? url.withoutFragment.toText r.entries = some ⟨root, "", "", url⟩ := by
      simp [r, Assoc.get?]
    have hnode : Json.Pointer.get? "/%é" root = some .null := by decide +kernel
    have hencodes : Url.Encodes "/%25%c3%A9".toList (Text.Utf8.encode "/%é".toList) := by
      exact .plain (by decide) (.escaped _ rfl rfl (.escaped _ rfl rfl (.escaped _ rfl rfl .nil)))
    exact ⟨r, url, resolve_fragment.2.2 r url url root .null "" "/%é" "/%25%c3%A9" hget hnode
      hencodes (by decide +kernel)⟩

end Resources
end SchemaCompiler
