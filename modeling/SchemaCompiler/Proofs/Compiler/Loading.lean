import Mathlib.Data.List.Perm.Subperm
import SchemaCompiler.Proofs.Compiler.Identity
import SchemaCompiler.Proofs.Compiler.Modes

/-!
# Taking documents from a store

A schema is compiled, and when a reference leads to a document that is not known, the document is
taken from a store and the compilation starts again. What is known is looked at between two
compilations, when the one that failed is forgotten: the documents of before and those taken since
then count, and the schema that is being compiled does not. So a store is asked for nothing that has
been taken up, a reference into a known document ends the loading without a question, and a reference
from a schema into itself that leads nowhere makes the store be asked for the schema.
-/
namespace SchemaCompiler.Compiler

variable {P : Descriptor → Prop} {c c' c₁ c₂ c₃ : Compiler} {store : List (String × Json)}
  {schema document : Json} {asked : List String} {missing : MissingReference} {uri : String}
  {rounds : Nat}

/-- How far a loading can get from a compiler: the URIs asked for so far, each of which the store has
a document for, and the compiler that has taken the documents up. -/
inductive Loading (store : List (String × Json)) (schema : Json) (c : Compiler) :
    List String → Compiler → Prop
  | start : Loading store schema c [] c
  | taken {asked : List String} {c₁ c₂ c₃ : Compiler} {missing : MissingReference} {document : Json}
      {uri : String} (before : Loading store schema c asked c₁)
      (stops : c₁.compile schema = (.error (.missingReference missing), c₂))
      (absent : missing.document ∉ c₁.session.resources.uris)
      (supplied : Assoc.get? missing.document store = some document)
      (added : c₂.addSchema document (some missing.document) = (.ok uri, c₃)) :
      Loading store schema c (asked ++ [missing.document]) c₃

/-- The store is asked for a URI after others: a compilation stops at a reference into the document
of that URI, and no such document is known. -/
def Asks (store : List (String × Json)) (schema : Json) (c : Compiler) (before : List String)
    (uri : String) : Prop :=
  ∃ c₁ c₂ missing, Loading store schema c before c₁ ∧
    c₁.compile schema = (.error (.missingReference missing), c₂) ∧ missing.document = uri ∧
    uri ∉ c₁.session.resources.uris

def Asked (store : List (String × Json)) (schema : Json) (c : Compiler) (asked : List String) : Prop :=
  ∀ before uri later, asked = before ++ uri :: later → Asks store schema c before uri

theorem asked_nil : Asked store schema c [] := by
  intro before uri later h
  simp at h

theorem Asked.snoc (h : Asked store schema c asked) (hu : Asks store schema c asked uri) :
    Asked store schema c (asked ++ [uri]) := by
  intro before u later hsplit
  rcases List.eq_nil_or_concat later with rfl | ⟨later', last, rfl⟩
  · obtain ⟨rfl, hlast⟩ := List.append_inj' hsplit rfl
    obtain rfl : uri = u := by simpa using hlast
    exact hu
  · rw [List.concat_eq_append, ← List.cons_append, ← List.append_assoc] at hsplit
    exact h before u later' (List.append_inj' hsplit rfl).1

/-! ## One round -/

theorem contains_iff_mem_uris {r : Resources} : r.contains uri = true ↔ uri ∈ r.uris := by
  cases hget : Assoc.get? uri r.entries with
  | some place =>
    have hmem : uri ∈ r.uris := Assoc.mem_keys_of_get?_eq_some hget
    simp [Resources.contains, Assoc.contains, hget, hmem]
  | none =>
    have hmem : uri ∉ r.uris := Assoc.get?_eq_none_iff.1 hget
    simp [Resources.contains, Assoc.contains, hget, hmem]

/-- A compilation that stops at a missing document leaves the documents as they were; that of the
schema itself is forgotten. -/
theorem InOrder.of_stop (hP : Admits P) (h : c.InOrder P)
    (hstop : c.compile schema = (.error (.missingReference missing), c')) :
    c'.InOrder P ∧ c'.session.resources.uris = c.session.resources.uris := by
  have hentry := h.compileEntry hP schema
  unfold Compiler.compile at hstop
  rcases hr : c.compileEntry schema with ⟨e | ⟨entry, isAsync⟩, c''⟩
  · rw [hr] at hstop hentry
    obtain ⟨names, anonymous, anchors, -, -, -, hmarked⟩ := hentry.1
    cases hstop
    exact ⟨h.restores hentry.1, by rw [hmarked]; rfl⟩
  · -- linking asks for nothing
    rw [hr] at hstop
    exact absurd ⟨missing, congrArg Prod.fst hstop⟩ (not_asking_link c'' entry isAsync)

/-- A document that is taken up is known by the URI that was asked for, in the form in which it is
written. -/
theorem InOrder.of_added (h : c.InOrder P) {u : String}
    (hadd : c.addSchema document (some uri) = (.ok u, c')) :
    c'.InOrder P ∧ c.session.resources.uris ⊆ c'.session.resources.uris ∧
      ∃ url, Url.read uri = .ok url ∧
        Assoc.get? url.withoutFragment.toText c'.session.resources.entries =
          some ((Assoc.get? url.withoutFragment.toText c.session.resources.entries).getD
            ⟨document, url.withoutFragment.toText, "", url.withoutFragment⟩) := by
  have hregister : c.register document (some uri) = (.ok u, c') := by
    unfold Compiler.addSchema at hadd
    rcases hr : c.register document (some uri) with ⟨e | u', c''⟩
    · rw [hr] at hadd
      cases hadd
    · rw [hr] at hadd
      exact hadd
  obtain ⟨horder, hproceeds, -⟩ := h.register document (some uri)
  rw [hregister] at horder hproceeds
  refine ⟨horder, (hproceeds.gains.entries.map Prod.fst).subset, ?_⟩
  obtain ⟨url, hurl, hran⟩ := addDocument_of_register hregister
  obtain ⟨rfl, hget, -⟩ := Resources.get?_addDocument h.resources hran
  refine ⟨url, ?_, hget⟩
  simp only [documentUri, Option.some_or] at hurl
  cases hread : Url.read uri <;> rw [hread] at hurl <;> cases hurl
  rfl

/-- A reference that leads nowhere stops the compilation, unless the options say otherwise. -/
theorem ran_apply_of_missing {o : Occurrence} (hpolicy : o.policy.missing = .propagate)
    {a : Assembly Session} (dynamic : Bool)
    (h : a.session.resources.resolve ((o.value.string?).getD "") o.site.base = .error missing) :
    ran (Reference.apply dynamic o) a = (.error (.missingReference missing), a) := by
  have hsession : ran Gen.session a = (.ok a.session, a) := rfl
  unfold Reference.apply
  rw [ran_bind, hsession, follow_ok]
  simp only [h, hpolicy]
  rfl

/-! ## All rounds -/

/-- What holds however far a loading has got. -/
structure Underway (P : Descriptor → Prop) (store : List (String × Json)) (c : Compiler)
    (asked : List String) (c' : Compiler) : Prop where
  order : c'.InOrder P
  /-- What was known is known. -/
  known : c.session.resources.uris ⊆ c'.session.resources.uris
  /-- Everything asked for was supplied, -/
  supplied : asked ⊆ store.map Prod.fst
  /-- and has been taken up. -/
  taken : ∀ u ∈ asked, ∃ url, Url.read u = .ok url ∧
    url.withoutFragment.toText ∈ c'.session.resources.uris

theorem Loading.history (h : Loading store schema c asked c') : Asked store schema c asked := by
  induction h with
  | start => exact asked_nil
  | taken before stops absent supplied added ih =>
    exact ih.snoc ⟨_, _, _, before, stops, rfl, absent⟩

theorem loadRounds_taken (hstop : c₁.compile schema = (.error (.missingReference missing), c₂))
    (habsent : c₂.session.resources.contains missing.document = false)
    (hsupplied : Assoc.get? missing.document store = some document)
    (hadd : c₂.addSchema document (some missing.document) = (.ok uri, c₃)) :
    loadRounds store schema (rounds + 1) asked c₁ =
      loadRounds store schema rounds (asked ++ [missing.document]) c₃ := by
  simp [loadRounds, hstop, habsent, hsupplied, hadd]

section

variable (hP : Admits P) (h : c.InOrder P)

include hP h

theorem InOrder.underway (hl : Loading store schema c asked c') : Underway P store c asked c' := by
  induction hl with
  | start => exact ⟨h, fun _ hu => hu, List.nil_subset _, nofun⟩
  | taken before stops absent supplied added ih =>
    obtain ⟨horder, huris⟩ := ih.order.of_stop hP stops
    obtain ⟨horder', hsubset, url, hread, hget⟩ := horder.of_added added
    rw [huris] at hsubset
    refine ⟨horder', fun u hu => hsubset (ih.known hu), fun u hu => ?_, fun u hu => ?_⟩
    · rcases List.mem_append.1 hu with hu | hu
      · exact ih.supplied hu
      · rw [List.mem_singleton.1 hu]
        exact Assoc.mem_keys_of_get?_eq_some supplied
    · rcases List.mem_append.1 hu with hu | hu
      · obtain ⟨url, hread, hmem⟩ := ih.taken u hu
        exact ⟨url, hread, hsubset hmem⟩
      · rw [List.mem_singleton.1 hu]
        exact ⟨url, hread, Assoc.mem_keys_of_get?_eq_some hget⟩

theorem InOrder.contains_of_stop
    (hstop : c.compile schema = (.error (.missingReference missing), c')) (uri : String) :
    c'.session.resources.contains uri = decide (uri ∈ c.session.resources.uris) := by
  rw [Bool.eq_iff_iff, contains_iff_mem_uris, (h.of_stop hP hstop).2, decide_eq_true_iff]

theorem InOrder.loadRounds_of_loading
    (hl : Loading store schema c asked c') (hle : asked.length ≤ rounds) :
    Compiler.loadRounds store schema rounds [] c =
      Compiler.loadRounds store schema (rounds - asked.length) asked c' := by
  induction hl with
  | start => rfl
  | @taken asked c₁ c₂ c₃ missing document u before stops absent supplied added ih =>
    rw [List.length_append, List.length_singleton] at hle
    have hcontains := (h.underway hP before).order.contains_of_stop hP stops missing.document
    rw [decide_eq_false absent] at hcontains
    rw [ih (by omega), show rounds - asked.length = rounds - (asked.length + 1) + 1 by omega,
      loadRounds_taken stops hcontains supplied added, List.length_append, List.length_singleton]

/-- Rounds from where a loading has got to ask for further documents, none of them known at the
time. -/
theorem InOrder.asked_loadRounds (rounds : Nat) (hl : Loading store schema c asked c') :
    asked <+: (Compiler.loadRounds store schema rounds asked c').2 ∧
      Asked store schema c (Compiler.loadRounds store schema rounds asked c').2 := by
  induction rounds generalizing asked c' with
  | zero => exact ⟨List.prefix_refl _, hl.history⟩
  | succ rounds ih =>
    unfold Compiler.loadRounds
    split
    · rename_i missing c'' hstop
      rw [(h.underway hP hl).order.contains_of_stop hP hstop]
      split
      · exact ⟨List.prefix_refl _, hl.history⟩
      · rename_i habsent
        rw [decide_eq_true_iff] at habsent
        have hlast := hl.history.snoc ⟨_, _, _, hl, hstop, rfl, habsent⟩
        split
        · exact ⟨List.prefix_append _ _, hlast⟩
        · rename_i document hsupplied
          split
          · exact ⟨List.prefix_append _ _, hlast⟩
          · rename_i u c₃ hadd
            obtain ⟨hbefore, hasked⟩ := ih (hl.taken hstop habsent hsupplied hadd)
            exact ⟨(List.prefix_append _ _).trans hbefore, hasked⟩
    · exact ⟨List.prefix_refl _, hl.history⟩

/-- What becomes of a compilation that stops at a missing document, if a round is left. -/
theorem InOrder.loadRounds_of_stop (rounds : Nat) (hl : Loading store schema c asked c')
    (hstop : c'.compile schema = (.error (.missingReference missing), c₂)) :
    if missing.document ∈ c'.session.resources.uris then
      Compiler.loadRounds store schema (rounds + 1) asked c' =
        ((.error (.unresolvedReference missing), c₂), asked)
    else asked ++ [missing.document] <+:
      (Compiler.loadRounds store schema (rounds + 1) asked c').2 := by
  have hcontains := (h.underway hP hl).order.contains_of_stop hP hstop missing.document
  split
  · rename_i hknown
    rw [decide_eq_true hknown] at hcontains
    simp [Compiler.loadRounds, hstop, hcontains]
  · rename_i habsent
    rw [decide_eq_false habsent] at hcontains
    cases hsupplied : Assoc.get? missing.document store with
    | none =>
      simp only [Compiler.loadRounds, hstop, hcontains, hsupplied]
      exact List.prefix_refl _
    | some document =>
      rcases hadd : c₂.addSchema document (some missing.document) with ⟨e | u, c₃⟩
      · simp only [Compiler.loadRounds, hstop, hcontains, hsupplied, hadd]
        exact List.prefix_refl _
      · rw [loadRounds_taken hstop hcontains hsupplied hadd]
        exact (h.asked_loadRounds hP rounds (hl.taken hstop habsent hsupplied hadd)).1

end

/-- Whatever has been asked of a compiler, and whatever a schema and a store are.

Each URI that the store is asked for while the schema is loaded is one at which a compilation stops,
and is not known then. Known are what was known before, and what was taken from the store since.

Wherever a compilation stops, unless the store was asked for a document twice: if the document is
known, the loading ends with an unresolved reference and no further question. If it is not, the store
is asked, be it for the document of the schema itself. And where missing references are not passed
over, a reference does stop the compilation when it leads nowhere. -/
theorem loading_asks_for_unknown (o : Options) (requests : List Request)
    (hr : ∀ r ∈ requests, r.Lawful) (store : List (String × Json)) (schema : Json) :
    let c := after o requests
    let reply := c.compileLoading store schema
    (∀ before uri later, reply.2 = before ++ uri :: later →
      ∃ c₁ missing, Loading store schema c before c₁ ∧
        (c₁.compile schema).1 = .error (.missingReference missing) ∧ missing.document = uri ∧
        c.session.resources.uris ⊆ c₁.session.resources.uris ∧
        (∀ u ∈ before, ∃ url, Url.read u = .ok url ∧
          url.withoutFragment.toText ∈ c₁.session.resources.uris) ∧
        uri ∉ c₁.session.resources.uris) ∧
    (∀ asked c₁ missing, Loading store schema c asked c₁ → asked.Nodup →
      (c₁.compile schema).1 = .error (.missingReference missing) →
      if missing.document ∈ c₁.session.resources.uris then
        reply.1.1 = .error (.unresolvedReference missing) ∧ reply.2 = asked
      else asked ++ [missing.document] <+: reply.2) ∧
    ∀ (dynamic : Bool) (p : Occurrence) (a : Assembly Session) (missing : MissingReference),
      p.policy.missing = .propagate →
      a.session.resources.resolve (p.value.string?.getD "") p.site.base = .error missing →
      (ran (Reference.apply dynamic p) a).1 = .error (.missingReference missing) := by
  intro c reply
  have horder : c.InOrder Descriptor.IsPlain :=
    inOrder_after admits_isPlain o fun r hmem => (hr r hmem).within
  refine ⟨fun before uri later hsplit => ?_, fun asked c₁ missing hl hnodup hstop => ?_,
    fun dynamic p a missing hpolicy hresolve => ?_⟩
  · obtain ⟨c₁, c₂, missing, hl, hstop, huri, habsent⟩ :=
      (horder.asked_loadRounds admits_isPlain (store.length + 1) .start).2 before uri later hsplit
    have hunderway := horder.underway admits_isPlain hl
    exact ⟨c₁, missing, hl, by rw [hstop], huri, hunderway.known, hunderway.taken, habsent⟩
  · -- each document of the store was taken once, so that there is a round left
    have hle : asked.length ≤ store.length := by
      have hsupplied := (horder.underway admits_isPlain hl).supplied
      simpa using (List.subperm_of_subset hnodup hsupplied).length_le
    rcases hc : c₁.compile schema with ⟨result, c₂⟩
    rw [hc] at hstop
    obtain rfl : result = _ := hstop
    have hreply : reply = Compiler.loadRounds store schema (store.length - asked.length + 1) asked c₁ := by
      rw [show store.length - asked.length + 1 = store.length + 1 - asked.length by omega]
      exact horder.loadRounds_of_loading admits_isPlain hl (by omega)
    have hround := horder.loadRounds_of_stop admits_isPlain (store.length - asked.length) hl hc
    rw [← hreply] at hround
    split
    · rename_i hknown
      rw [if_pos hknown] at hround
      rw [hround]
      exact ⟨rfl, rfl⟩
    · rename_i habsent
      rwa [if_neg habsent] at hround
  · rw [ran_apply_of_missing hpolicy dynamic hresolve]

/-- A schema that leads to a document of the store, whose reference leads back into a document that
was added before. -/
theorem loading_asks_for_unknown_of_two :
    let requests : List Request := [.document (.bool true) (some "x:a")]
    let store : List (String × Json) := [("x:b", .object [("$ref", .string "x:a#/nope")])]
    let reply := (after .standard requests).compileLoading store (.object [("$ref", .string "x:b")])
    reply.2 = ["x:b"] ∧ "x:b" ∉ (after .standard requests).session.resources.uris := by
  intro requests store reply
  have hreply : reply.2 = [] ++ "x:b" :: [] := by
    simp only [reply, after, new_standard]
    decide +kernel
  obtain ⟨hasks, -, -⟩ := loading_asks_for_unknown .standard requests
    (by simp [requests, Request.Lawful]) store (.object [("$ref", .string "x:b")])
  obtain ⟨c₁, missing, -, -, -, hknown, -, habsent⟩ := hasks [] "x:b" [] hreply
  exact ⟨hreply, fun hmem => habsent (hknown hmem)⟩

/-- A schema with a reference into itself that leads nowhere: the store is asked for the schema. -/
theorem loading_asks_for_itself :
    let reply := (new .standard).compileLoading []
      (.object [("$id", .string "http://e.com/s"), ("$ref", .string "#/nope")])
    reply.2 = ["http://e.com/s"] ∧
      (match reply.1.1 with
        | .error (.missingReference missing) => missing.document == "http://e.com/s"
        | _ => false) = true := by
  rw [new_standard]
  decide +kernel

end SchemaCompiler.Compiler
