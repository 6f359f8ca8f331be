import SchemaCompiler.Proofs.Compiler.Documents
import SchemaCompiler.Proofs.Compiler.History
import SchemaCompiler.Proofs.Planning.Dialects

/-!
# Compilers in order

Whatever a compiler is asked for, keywords that emit code of their own included, what it holds is in
order afterwards: what was done in vain is forgotten, and what was done is done to its end. Only the
names and numbers given on the way, and anchors at URIs that were known, are left of what failed.
-/
namespace SchemaCompiler

variable {P : Descriptor → Prop} {b : Assembly Session} {e : ValueScope.Entry}

theorem works_function {visit : Site → Planner Plan} (hv : ∀ site, Keeps P (visit site)) {t : Target}
    {a : Assembly Session} (hc : ∀ w f, t.progress ≠ .compiling w f)
    (hd : ∀ f, t.progress = .done f → f ∈ a.defined) (direct : Bool) :
    Works P (Reference.compileTarget visit t direct) a fun f b => f ∈ b.defined := by
  cases hp : t.progress with
  | pending => exact (works_compileTarget hv t hp direct a).mono fun _ _ _ _ h => h.1
  | compiling w f => exact absurd hp (hc w f)
  | done f =>
    simp only [Reference.compileTarget, hp]
    exact .pure (hd f hp)

namespace Compiler

/-! ## The state of a compiler -/

/-- What holds of a compiler between two requests. -/
structure InOrder (P : Descriptor → Prop) (c : Compiler) : Prop where
  program : SchemaCompiler.InOrder P c.assembly
  dialect : c.dialect.Orderly P
  resources : c.session.resources.Sound
  filled : ∀ slot ∈ c.assembly.slots, slot ≠ none
  idle : ∀ e ∈ c.session.targets, ∀ w f, e.2.progress ≠ .compiling w f
  compiled : ∀ e ∈ c.compiled, e.2.1 ∈ c.assembly.defined
  chain : c.session.chain = []
  entryDocument : c.session.entryDocument = none

/-- What a compiler becomes while it is at work, be it in vain. -/
structure Proceeds (c c' : Compiler) : Prop where
  given : c.assembly.given ≤ c'.assembly.given
  entries : c.assembly.entries <+: c'.assembly.entries
  slots : c.assembly.slots <+: c'.assembly.slots
  checkers : c.assembly.checkers <+: c'.assembly.checkers
  outlines : c.assembly.outlines <+: c'.assembly.outlines
  functions : c'.library.functions = c.library.functions
  gains : c.session.resources.Gains c'.session.resources
  sound : c'.session.resources.Sound
  dialect : c'.dialect = c.dialect
  compiled : c'.compiled = c.compiled
  anonymous : c.anonymous ≤ c'.anonymous

namespace Proceeds

variable {c c' c'' : Compiler}

theorem trans (h : Proceeds c c') (h' : Proceeds c' c'') : Proceeds c c'' where
  given := le_trans h.given h'.given
  entries := h.entries.trans h'.entries
  slots := h.slots.trans h'.slots
  checkers := h.checkers.trans h'.checkers
  outlines := h.outlines.trans h'.outlines
  functions := h'.functions.trans h.functions
  gains := h.gains.trans h'.gains
  sound := h'.sound
  dialect := h'.dialect.trans h.dialect
  compiled := h'.compiled.trans h.compiled
  anonymous := Nat.le_trans h.anonymous h'.anonymous

theorem of_extends (hr : c.session.resources.Sound)
    (h : Extends c.assembly b) (hl : c'.library = b.library)
    (ht : c'.session.targets = b.session.targets) (hc : c'.session.checkers = b.session.checkers)
    (hres : c'.session.resources = b.session.resources) (hd : c'.dialect = c.dialect)
    (hk : c'.compiled = c.compiled) (hn : c'.anonymous = c.anonymous) : Proceeds c c' := by
  have hresources : c'.session.resources = c.session.resources := hres.trans h.resources
  obtain ⟨dialect, library, ⟨resources, targets, checkers, chain, document⟩, compiled, anonymous⟩ := c'
  cases hl
  cases ht
  cases hc
  exact
    { given := h.given
      entries := h.entries
      slots := h.slots
      checkers := h.checkers
      outlines := h.outlines
      functions := h.functions
      gains := hresources ▸ .refl _
      sound := hresources ▸ hr
      dialect := hd
      compiled := hk
      anonymous := Nat.le_of_eq hn.symm }

theorem refl (hr : c.session.resources.Sound) : Proceeds c c :=
  of_extends hr (.refl _) rfl rfl rfl rfl rfl rfl rfl

end Proceeds

/-! ## Compiling the schema of a place -/

def starting (place : Location) (c : Compiler) : Assembly Session :=
  ⟨.empty, [], c.library,
    { (c.session.targetFor place).2 with entryDocument := some place.document }⟩

theorem compileUri_eq {c : Compiler} {uri : String} {base : Url} {place : Location}
    (hread : Url.read uri = .ok base) (hresolve : c.session.resources.resolve uri base = .ok place) :
    c.compileUri uri =
      match ran (Reference.compileTarget (c.dialect.planTo c.depthBound)
        (c.session.targetFor place).1 true) (c.starting place) with
      | (.error e, b) => (.error e, { c with library := b.library, session := b.session })
      | (.ok f, b) => (.ok (f, (c.session.targetFor place).1.isAsync),
        { c with library := b.library, session := { b.session with entryDocument := none } }) := by
  rw [compileUri, hread]
  dsimp only
  rw [hresolve]
  have hexecute : Gen.execute (Reference.compileTarget (c.dialect.planTo c.depthBound)
        (c.session.targetFor place).1 true) c.library
        { (c.session.targetFor place).2 with entryDocument := some place.document } =
      match ran (Reference.compileTarget _
        (c.session.targetFor place).1 true) (c.starting place) with
      | (r, b) => (r, b.library, b.session) := rfl
  dsimp only
  rw [hexecute]
  generalize ran _ _ = r
  rcases r with ⟨e | f, b⟩ <;> rfl

/-! ## Forgetting what was done in vain -/

def marked (names : Counters) (anonymous : Nat) (anchors : List String) (c : Compiler) : Compiler :=
  { c with
    library := { c.library with scope := { c.library.scope with names := names } }
    session := { c.session with resources :=
      { c.session.resources with dynamic := c.session.resources.dynamic ++ anchors } }
    anonymous := anonymous }

/-- The compiler as it was, but for names and numbers given since, and for anchors at URIs that were
known. -/
def Restores (c c' : Compiler) : Prop :=
  ∃ names anonymous anchors, c.assembly.given ≤ names ∧ c.anonymous ≤ anonymous ∧
    (∀ uri ∈ anchors, uri ∈ c.session.resources.uris) ∧ c' = c.marked names anonymous anchors

/-- An operation that gives something with a property and leaves a compiler in order, or fails, for
no want of a slot, and leaves the compiler as it was. -/
def Settles {α : Type} (P : Descriptor → Prop) (c : Compiler) (Q : α → Compiler → Prop) :
    Result α → Prop
  | (.ok a, c') => c'.InOrder P ∧ Q a c'
  | (.error e, c') => Restores c c' ∧ ¬ e.AboutSlot

theorem rollback_eq_marked {c c' : Compiler} (h : c.InOrder P) (hp : Proceeds c c') :
    ∃ anchors, rollback c.checkpoint c' =
        c.marked c'.assembly.given c'.anonymous anchors ∧
      ∀ uri ∈ anchors, uri ∈ c.session.resources.uris := by
  obtain ⟨anchors, hresources, hknown⟩ :=
    Resources.rollback_of_gains h.resources hp.sound hp.gains
  refine ⟨anchors, ?_, hknown⟩
  have hentries : c'.library.scope.entries.take c.library.scope.entries.length
      = c.library.scope.entries := (List.prefix_iff_eq_take.1 hp.entries).symm
  have hslots : c'.library.scope.slots.take c.library.scope.slots.length = c.library.scope.slots :=
    (List.prefix_iff_eq_take.1 hp.slots).symm
  have hcheckers : c'.session.checkers.take c.session.checkers.length = c.session.checkers :=
    (List.prefix_iff_eq_take.1 hp.checkers).symm
  have htargets : restored c'.session.targets _
      = c.session.targets := restored_eq hp.outlines
  have hchain := h.chain
  have hdocument := h.entryDocument
  obtain ⟨dialect, ⟨⟨names, entries, slots⟩, functions⟩,
    ⟨⟨places, dynamic⟩, targets, checkers, chain, document⟩, compiled, anonymous⟩ := c
  obtain ⟨dialect', ⟨⟨names', entries', slots'⟩, functions'⟩,
    ⟨resources', targets', checkers', chain', document'⟩, compiled', anonymous'⟩ := c'
  obtain rfl : dialect' = dialect := hp.dialect
  obtain rfl : compiled' = compiled := hp.compiled
  obtain rfl : functions' = functions := hp.functions
  dsimp only at hentries hslots hcheckers htargets hresources hchain hdocument
  simp only [rollback, checkpoint, ValueScope.checkpoint, ValueScope.rollback, hentries,
    hslots, hcheckers, htargets, hresources, hchain, hdocument]
  rfl

namespace InOrder

variable {c c' : Compiler}

section

variable (h : c.InOrder P)

include h

theorem marked {names : Counters} (hn : c.assembly.given ≤ names) (anonymous : Nat)
    {anchors : List String} (ha : ∀ uri ∈ anchors, uri ∈ c.session.resources.uris) :
    (c.marked names anonymous anchors).InOrder P where
  program :=
    { h.program with
      entries_given := fun e he => (h.program.entries_given e he).mono hn
      belongs := fun e he => (h.program.belongs e he).mono (fun _ => id) (Nat.le_refl _)
      defined_given := fun f hf => (h.program.defined_given f hf).mono hn }
  dialect := h.dialect
  resources := ⟨h.resources.nodup, fun uri hu =>
    (List.mem_append.1 hu).elim (h.resources.known uri) (ha uri)⟩
  filled := h.filled
  idle := h.idle
  compiled := h.compiled
  chain := h.chain
  entryDocument := h.entryDocument

theorem restores (hr : Restores c c') : c'.InOrder P := by
  obtain ⟨names, anonymous, anchors, hn, -, ha, rfl⟩ := hr
  exact h.marked hn anonymous ha

theorem rollback (hp : Proceeds c c') : Restores c (Compiler.rollback c.checkpoint c') := by
  obtain ⟨anchors, heq, hknown⟩ := rollback_eq_marked h hp
  exact ⟨_, _, anchors, hp.given, hp.anonymous, hknown, heq⟩

/-! ## Documents -/

theorem register (schema : Json) (uri : Option String) :
    (c.register schema uri).2.InOrder P ∧ Proceeds c (c.register schema uri).2 ∧
      SlotFree (c.register schema uri).1 := by
  have hcounted : ∀ n, c.anonymous ≤ n → ({ c with anonymous := n }).InOrder P ∧
      Proceeds c { c with anonymous := n } := fun n hn =>
    ⟨{ h with }, { Proceeds.refl h.resources with anonymous := hn }⟩
  have hdocument : SlotFree (c.documentUri schema uri).1 ∧
      ∃ n, c.anonymous ≤ n ∧ (c.documentUri schema uri).2 = { c with anonymous := n } := by
    have hread : ∀ text (fault : Url.Fault → SchemaFault), SlotFree ((Url.read text).mapError
        fun f => CompileError.invalidSchema "#" (fault f)) := by
      intro text fault
      cases Url.read text with
      | error e => exact .error id
      | ok url => exact .ok _
    unfold documentUri
    split
    · exact ⟨hread _ _, c.anonymous, Nat.le_refl _, rfl⟩
    · dsimp only
      exact ⟨hread _ _, c.anonymous + 1, Nat.le_succ _, rfl⟩
  obtain ⟨hfree, n, hn, hafter⟩ := hdocument
  obtain ⟨hc, hp⟩ := hcounted n hn
  unfold Compiler.register
  rcases hd : c.documentUri schema uri with ⟨e | url, c'⟩
  · rw [hd] at hfree hafter
    subst hafter
    exact ⟨hc, hp, .error (hfree e rfl)⟩
  · rw [hd] at hafter
    subst hafter
    dsimp only
    split
    · rename_i e he
      exact ⟨hc, hp, .error (Dialect.slotFree_checkSchema _ _ e he)⟩
    · obtain ⟨hs, hg, hfree⟩ := Resources.adds_addDocument schema url c.session.resources h.resources
      refine ⟨?_, ?_, hfree⟩
      · exact { h with program := h.program.skip rfl rfl rfl, resources := hs }
      · exact { Proceeds.refl h.resources with gains := hg, sound := hs, anonymous := hn }

/-! ## Compilation -/

theorem absorb (hb : SchemaCompiler.InOrder P b) (hext : Extends c.assembly b)
    (hslots : ∀ i, c.assembly.slots.length ≤ i → b.slots[i]? ≠ some none)
    (hsettled : ∀ e ∈ b.session.targets, ∀ w f, e.2.progress = .compiling w f →
      e ∈ c.session.targets) (hchain : b.session.chain = []) :
    InOrder P { c with
      library := b.library
      session := { b.session with entryDocument := none } } where
  program := hb.skip rfl rfl rfl
  dialect := h.dialect
  resources := by
    rw [hext.resources]
    exact h.resources
  filled := by
    rintro slot hslot rfl
    obtain ⟨i, hi⟩ := List.mem_iff_getElem?.1 hslot
    by_cases hlt : i < c.assembly.slots.length
    · obtain ⟨rest, hrest⟩ := hext.slots
      have hold : c.assembly.slots[i]? = some none := by
        rw [← List.getElem?_append_left hlt, hrest]
        exact hi
      exact h.filled none (List.mem_iff_getElem?.2 ⟨i, hold⟩) rfl
    · exact hslots i (Nat.le_of_not_lt hlt) hi
  idle := fun e he w f hp => h.idle e (hsettled e he w f hp) w f hp
  compiled := fun e he => hext.defined (h.compiled e he)
  chain := hchain
  entryDocument := rfl

theorem starting (place : Location) :
    SchemaCompiler.InOrder P (c.starting place) ∧ Extends c.assembly (c.starting place) ∧
      (∀ e ∈ (c.starting place).session.targets, ∀ w f, e.2.progress = .compiling w f →
        e ∈ c.session.targets) ∧
      (c.starting place).session.chain = [] ∧
      (∀ w f, (c.session.targetFor place).1.progress ≠ .compiling w f) ∧
      ∀ f, (c.session.targetFor place).1.progress = .done f → f ∈ (c.starting place).defined := by
  obtain ⟨hs, hadvance, hdone⟩ : SchemaCompiler.InOrder P
        { c.assembly with session := (c.session.targetFor place).2 } ∧
      Advance c.assembly { c.assembly with session := (c.session.targetFor place).2 } ∧
      ∀ f, (c.session.targetFor place).1.progress = .done f → f ∈ Assembly.defined
        { c.assembly with session := (c.session.targetFor place).2 } :=
    works_targetFor place c.assembly h.program
  refine ⟨hs.skip rfl rfl rfl, { hadvance.toExtends with }, hadvance.settled,
    hadvance.chain.trans h.chain, ?_, hdone⟩
  rcases c.session.targetFor_cases place with ⟨t, hmem, ht⟩ | ⟨-, t, -, hpending, ht⟩
  · rw [ht]
    exact h.idle _ hmem
  · rw [ht, hpending]
    exact fun w f hp => nomatch hp

end

theorem compileUri (hP : Admits P) (h : c.InOrder P) (uri : String) :
    match c.compileUri uri with
    | (.ok entry, c') => c'.InOrder P ∧ Proceeds c c' ∧ entry.1 ∈ c'.assembly.defined
    | (.error e, c') => Proceeds c c' ∧ ¬ e.AboutSlot := by
  cases hread : Url.read uri with
  | error fault =>
    rw [Compiler.compileUri, hread]
    exact ⟨.refl h.resources, id⟩
  | ok base =>
    cases hresolve : c.session.resources.resolve uri base with
    | error missing =>
      rw [Compiler.compileUri, hread]
      dsimp only
      rw [hresolve]
      exact ⟨.refl h.resources, id⟩
    | ok place =>
      obtain ⟨hstart, hbegin, hsettled, hchain, hidle, hdone⟩ := h.starting place
      have hwork := works_function (Dialect.keeps_planTo hP h.dialect c.depthBound) hidle hdone true
        hstart
      rw [compileUri_eq hread hresolve]
      generalize ran _ _ = r at hwork
      rcases r with ⟨e | f, b⟩
      · have hextends := hbegin.trans hwork.1
        exact ⟨.of_extends h.resources hextends rfl rfl rfl rfl rfl rfl rfl, hwork.2⟩
      · obtain ⟨hb, hbwork, hf⟩ := hwork
        have hextends := hbegin.trans hbwork.toExtends
        refine ⟨h.absorb hb hextends (fun i hi => hbwork.new_slots i hi) (fun e he w f hp => ?_) ?_,
          .of_extends h.resources hextends rfl rfl rfl rfl rfl rfl rfl, hf⟩
        · exact hsettled e (hbwork.settled e he w f hp) w f hp
        · exact hbwork.chain.trans hchain

/-! ## Linking -/

theorem slotFunction (h : c.InOrder P) {slot : Nat} (hs : slot < c.assembly.slots.length)
    (owner : Name) : ∃ f ∈ c.assembly.defined, c.library.scope.slotFunction slot owner = .ok f := by
  have hget : c.library.scope.slots[slot]? = some c.assembly.slots[slot] :=
    List.getElem?_eq_getElem hs
  have hmem : c.assembly.slots[slot] ∈ c.assembly.slots := List.getElem_mem hs
  unfold ValueScope.slotFunction
  rw [hget]
  cases hslot : c.assembly.slots[slot] with
  | none => exact absurd hslot (h.filled _ hmem)
  | some f =>
    rw [hslot] at hmem
    exact ⟨f, h.program.filled f hmem, rfl⟩

variable (hP : Admits P) (h : c.InOrder P)

include hP h

/-- An entry can be followed, and neither of its forms fails for a slot. -/
theorem forms (he : e ∈ c.assembly.entries) : (∃ next, c.library.scope.follow e = .ok next) ∧
    SlotFree (c.library.scope.liveForm e) ∧ SlotFree (c.library.scope.storedForm e) := by
  unfold ValueScope.follow ValueScope.liveForm ValueScope.storedForm
  cases h.program.belongs e he with
  | value d hd hlive hstored =>
    obtain ⟨hfunction, hforward⟩ := hP.plain d hd
    rw [hlive, hstored]
    refine ⟨?_, ?_, ?_⟩
    · split
      · rename_i f hl
        exact absurd hl (hfunction f).1
      · rename_i f hs _
        exact absurd hs (hfunction f).2
      · rename_i slot hl _
        exact absurd hl (hforward slot).1
      · rename_i slot hs _ _
        exact absurd hs (hforward slot).2
      · exact ⟨none, rfl⟩
    · split
      · rename_i slot hl
        exact absurd hl (hforward slot).1
      · exact .ok _
      · rename_i slot _ hs
        exact absurd hs (hforward slot).2
      · rename_i stored _ _ _
        cases Imports.none.link stored with
        | error fault => exact .error id
        | ok live => exact .ok _
      · exact .error id
    · split
      · rename_i slot hs
        exact absurd hs (hforward slot).2
      · exact .ok _
      · exact .error id
  | function f hlive hstored hf =>
    rw [hlive, hstored]
    exact ⟨⟨some f, rfl⟩, .ok _, .ok _⟩
  | forward slot hlive hstored hslot =>
    obtain ⟨f, hf, hslot⟩ := h.slotFunction hslot e.name
    rw [hlive, hstored]
    dsimp only
    rw [hslot]
    exact ⟨⟨some f, rfl⟩, .ok _, .ok _⟩

/-- Whatever an entry function reaches can be had in a form without an error about a slot, if every
value can. -/
theorem slotFree_reachedAs {τ : Type} {form : ValueScope.Entry → Except CompileError τ}
    (hform : ∀ e ∈ c.assembly.entries, SlotFree (form e)) (entry : Name)
    (functions : List (Name × FunctionDef)) :
    SlotFree (c.library.scope.reachedAs form entry functions) := by
  exact ValueScope.failsOnly_reachedAs (fun _ he => .of_exists (h.forms hP he).1) hform entry _

theorem slotFree_link (entry : Name) (isAsync : Bool) : SlotFree (c.link entry isAsync) :=
  (h.slotFree_reachedAs hP (fun _ he => (h.forms hP he).2.1) entry _).bind fun _ => .ok _

/-! ## Requests -/

/-- What keeps a compiler in order. -/
def regime (hP : Admits P) : Regime where
  inv := InOrder P
  work := Proceeds
  undone := Restores
  fails := fun e => ¬ e.AboutSlot
  enters := fun entry c => entry.1 ∈ c.assembly.defined
  gives := fun r _ => SlotFree r
  trans := Proceeds.trans
  undo := rollback
  restores := restores
  known := fun h hk => h.compiled _ (Assoc.mem_of_get?_eq_some hk)
  remember := fun text h he => by
    refine ⟨{ h with compiled := fun e hmem => ?_ }, he⟩
    rcases Assoc.mem_insert hmem with hmem | rfl
    · exact h.compiled e hmem
    · exact he
  register := fun schema uri h => h.register schema uri
  compileUri := fun uri h => h.compileUri hP uri
  link := fun h _ => h.slotFree_link hP _ _
  error := .error
  unresolved := fun _ => id

theorem addSchema (schema : Json) (uri : Option String) :
    Settles P c (fun _ _ => True) (c.addSchema schema uri) :=
  (regime hP).addSchema h schema uri

theorem undoing_compileUri (uri : String) :
    Settles P c (fun entry c' => entry.1 ∈ c'.assembly.defined)
      (undoing c.checkpoint (c.compileUri uri)) :=
  (regime hP).undoing_compileUri h uri

theorem compileEntry (schema : Json) :
    Settles P c (fun entry c' => entry.1 ∈ c'.assembly.defined) (c.compileEntry schema) :=
  (regime hP).compileEntry h schema

end InOrder
end Compiler
end SchemaCompiler
