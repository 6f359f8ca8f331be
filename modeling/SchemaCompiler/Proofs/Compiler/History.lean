import SchemaCompiler.Proofs.Compiler.Regime
import SchemaCompiler.Proofs.Planning.Vocabularies

/-!
# What a compiler goes through

A compiler is asked for one thing after the other: to define keywords and formats, to take up
documents, to compile. Whatever it is asked for and whether or not it can do it, it stays healthy:
what it holds hangs together, nothing is left half done, and what was compiled can be called as
before.
-/
namespace SchemaCompiler

open Assembly

variable {visit : Site → Planner Plan} {a : Assembly Session} {requests : List Request}

theorem makes_function (hv : Visits visit)
    {t : Target} (ht : a.target? t.place.key = some t) (hs : ¬ a.Compiling t.place.key)
    (direct : Bool) :
    Makes (Reference.compileTarget visit t direct) a fun f b => b.Finished t.place.key f := by
  cases hp : t.progress with
  | pending => exact makes_compileTarget hv ht hp direct
  | compiling w f => exact absurd ⟨t, w, f, ht, hp⟩ hs
  | done f =>
    simp only [Reference.compileTarget, hp]
    exact .pure ⟨t, ht, hp⟩

/-- The function of a place, with the document of the place as the one to start from. -/
def entryFunction (visit : Site → Planner Plan) (place : Location) (s : Session) :
    Planner Name := do
  Gen.setSession (s.targetFor place).2
  Gen.modifySession fun s => { s with entryDocument := some place.document }
  Reference.compileTarget visit (s.targetFor place).1 true

/-- The place has a function at the end, and what is known of the place is as it was. -/
theorem makes_entry (hv : Visits visit) (place : Location) (hs : ∀ key, ¬ a.Compiling key) :
    Makes (entryFunction visit place a.session) a fun f b =>
      ∃ t checker, b.target? place.key = some t ∧ t.progress = .done f ∧
        t.place = (a.session.targetFor place).1.place ∧ b.checker? f = some checker ∧
        checker.isAsync = (a.session.targetFor place).1.isAsync := by
  refine .of_from fun ha => ?_
  refine MakesFrom.bind ha (.refl a) le_rfl (makes_targetFor place)
    fun _ a₁ h₁ hg₁ _ hs₁ hn₁ ht => ?_
  have hstart : Makes (Gen.modifySession fun s : Session =>
      { s with entryDocument := some place.document }) a₁ fun _ b =>
        b.session.targets = a₁.session.targets :=
    .of_ran rfl (fun h => h.skip rfl rfl rfl rfl le_rfl) (.of_targets rfl)
      le_rfl fun _ => rfl
  refine MakesFrom.bind h₁ hg₁ hn₁ hstart fun _ a₂ h₂ hg₂ _ hs₂ hn₂ htargets => ?_
  have ht₂ : a₂.target? place.key = some (a.session.targetFor place).1 := by
    rw [target?, htargets]
    exact ht
  have hkey : (a.session.targetFor place).1.place.key = place.key := h₂.target_key _ _ ht₂
  have hidle : ¬ a₂.Compiling (a.session.targetFor place).1.place.key := fun hc =>
    hs _ (hs₁ _ (hs₂ _ hc))
  refine MakesFrom.of_makes h₂ hg₂ (hs₁.trans hs₂) hn₂
    (makes_function hv (hkey.symm ▸ ht₂) hidle true) fun f b hb hg _ hf => ?_
  obtain ⟨t, ht, hdone⟩ := hf
  obtain ⟨t', ht', hbecomes⟩ := hg.targets _ _ (hkey.symm ▸ ht₂)
  obtain rfl : t = t' := Option.some.inj (ht.symm.trans ht')
  obtain ⟨checker, hchecker, hasync⟩ := hb.done _ t f ht hdone
  exact ⟨t, checker, hkey ▸ ht, hdone, hbecomes.place, hchecker, hasync.trans hbecomes.isAsync⟩

namespace Compiler

variable (c : Compiler)

def assembly : Assembly Session := ⟨.empty, [], c.library, c.session⟩

def Enters (entry : Name × Bool) : Prop :=
  ∃ checker, c.assembly.checker? entry.1 = some checker ∧ checker.isAsync = entry.2

/-- What holds all the time of a compiler that was made with options. -/
structure Healthy (o : Options) (c : Compiler) : Prop where
  options_eq : c.options = o
  coherent : Coherent c.assembly
  settled : ∀ key, ¬ c.assembly.Compiling key
  vocabulary : c.dialect.vocabulary.Proper
  compiled : ∀ text entry, Assoc.get? text c.compiled = some entry → c.Enters entry

/-- What a compiler becomes while it is at work: the program grows, and nothing else changes. -/
structure Grows (c c' : Compiler) : Prop where
  growth : Growth c.assembly c'.assembly
  dialect : c'.dialect = c.dialect
  compiled : c'.compiled = c.compiled

namespace Grows

variable {c c' c'' : Compiler}

theorem refl (c : Compiler) : Grows c c := ⟨.refl _, rfl, rfl⟩

theorem trans (h : Grows c c') (h' : Grows c' c'') : Grows c c'' :=
  ⟨h.growth.trans h'.growth, h'.dialect.trans h.dialect, h'.compiled.trans h.compiled⟩

theorem enters (h : Grows c c') {entry : Name × Bool} (he : c.Enters entry) : c'.Enters entry := by
  obtain ⟨checker, hc, ha⟩ := he
  exact ⟨checker, h.growth.checker? hc, ha⟩

end Grows

/-- The targets of before are found at the start, whatever has become of them since. -/
theorem restored_eq {before after : List (String × Target)}
    (h : (before.map fun e => (e.1, e.2.place, e.2.isAsync)) <+:
      after.map fun e => (e.1, e.2.place, e.2.isAsync)) :
    restored after (before.map fun (_, t) => t.progress) = before := by
  induction before generalizing after with
  | nil => simp [restored]
  | cons e rest ih =>
    obtain ⟨key, place, isAsync, progress⟩ := e
    cases after with
    | nil => simp at h
    | cons e' rest' =>
      simp only [List.map_cons, List.cons_prefix_cons] at h
      obtain ⟨⟨rfl, rfl, rfl⟩, hrest⟩ := h
      have hih := ih hrest
      simp only [restored, List.map_cons, List.zipWith_cons_cons] at hih ⊢
      rw [hih]

theorem rollback_of_growth {c c' : Compiler} (h : Growth c.assembly c'.assembly) :
    (rollback c.checkpoint c').assembly.entries = c.assembly.entries ∧
      (rollback c.checkpoint c').assembly.slots = c.assembly.slots ∧
      (rollback c.checkpoint c').session.checkers = c.session.checkers ∧
      (rollback c.checkpoint c').session.targets = c.session.targets := by
  exact ⟨(List.prefix_iff_eq_take.1 h.entries).symm, (List.prefix_iff_eq_take.1 h.slots).symm,
    (List.prefix_iff_eq_take.1 h.checkers).symm, restored_eq h.outlines⟩

theorem register_snd (schema : Json) (uri : Option String) (c : Compiler) :
    ∃ resources n, (c.register schema uri).2 =
      { c with session := { c.session with resources := resources }, anonymous := n } := by
  have hdocument : ∃ n, (c.documentUri schema uri).2 = { c with anonymous := n } := by
    unfold documentUri
    split
    · exact ⟨c.anonymous, rfl⟩
    · exact ⟨c.anonymous + 1, rfl⟩
  obtain ⟨n, hn⟩ := hdocument
  unfold register
  rcases hd : c.documentUri schema uri with ⟨e | url, c'⟩ <;>
  · rw [hd] at hn
    subst hn
    dsimp only
    repeat' split
    all_goals exact ⟨_, n, rfl⟩

namespace Healthy

variable {o : Options} {c c' : Compiler}

theorem ofDialect {d : Dialect} (ho : d.options = o) (hd : d.vocabulary.Proper) :
    (ofDialect d).Healthy o where
  options_eq := ho
  coherent := by
    constructor <;> simp [assembly, Compiler.ofDialect, entries, checkers,
      target?, checker?, Session.empty, Library.empty, ValueScope.empty]
  settled := by
    rintro key ⟨t, w, f, ht, -⟩
    cases ht
  vocabulary := hd
  compiled := by simp [Compiler.ofDialect]

theorem new (o : Options) : (new o).Healthy o := by
  refine ofDialect rfl ?_
  simp only [Dialect.standard]
  exact Vocabulary.proper_standard o.discriminator

variable (h : c.Healthy o)

include h

theorem grow (hg : Grows c c') (hc : Coherent c'.assembly)
    (hs : Settled c.assembly c'.assembly) : c'.Healthy o where
  options_eq := by rw [options, hg.dialect]; exact h.options_eq
  coherent := hc
  settled := fun key hk => h.settled key (hs key hk)
  vocabulary := hg.dialect ▸ h.vocabulary
  compiled := fun text entry he => hg.enters (h.compiled text entry (hg.compiled ▸ he))

theorem rollback (hg : Grows c c') : (Compiler.rollback c.checkpoint c').Healthy o := by
  obtain ⟨hentries, hslots, hcheckers, htargets⟩ := rollback_of_growth hg.growth
  obtain ⟨hcoherent, hgrowth⟩ := h.coherent.skip hcheckers htargets hentries hslots
    hg.growth.given
  exact h.grow ⟨hgrowth, hg.dialect, hg.compiled⟩ hcoherent (.of_targets htargets)

theorem absorb (c' : Compiler) {b : Assembly Session} (hb : Coherent b)
    (hg : Growth c.assembly b) (hs : Settled c.assembly b) (hl : c'.library = b.library)
    (ht : c'.session.targets = b.session.targets)
    (hc : c'.session.checkers = b.session.checkers) (hd : c'.dialect = c.dialect)
    (hk : c'.compiled = c.compiled) : c'.Healthy o ∧ Grows c c' := by
  have hscope : c'.assembly.library = b.library := hl
  obtain ⟨hcoherent, hgrowth⟩ := hb.skip (b := c'.assembly) hc ht
    (by rw [entries, hscope]; rfl) (by rw [slots, hscope]; rfl)
    (by rw [given, given, hscope])
  have hgrows : Grows c c' := ⟨hg.trans hgrowth, hd, hk⟩
  exact ⟨h.grow hgrows hcoherent (hs.trans (.of_targets ht)), hgrows⟩

theorem skip (hl : c'.library = c.library) (ht : c'.session.targets = c.session.targets)
    (hc : c'.session.checkers = c.session.checkers) (hd : c'.dialect = c.dialect)
    (hk : c'.compiled = c.compiled) : c'.Healthy o ∧ Grows c c' :=
  h.absorb c' h.coherent (.refl _) (.of_targets rfl) hl ht hc hd hk

theorem register (schema : Json) (uri : Option String) :
    (c.register schema uri).2.Healthy o ∧ Grows c (c.register schema uri).2 := by
  obtain ⟨resources, n, hafter⟩ := register_snd schema uri c
  rw [hafter]
  exact h.skip rfl rfl rfl rfl rfl

theorem compileUri (uri : String) :
    match c.compileUri uri with
    | (.ok entry, c') => c'.Healthy o ∧ Grows c c' ∧ c'.Enters entry
    | (.error _, c') => Grows c c' ∧ True := by
  unfold Compiler.compileUri
  cases Url.read uri with
  | error fault => exact ⟨.refl c, trivial⟩
  | ok base =>
    dsimp only
    cases c.session.resources.resolve uri base with
    | error missing => exact ⟨.refl c, trivial⟩
    | ok place =>
      dsimp only
      have hmakes := makes_entry (visits_planTo h.vocabulary.dialect c.depthBound) place h.settled
        h.coherent
      -- setting the session first gives what running on that session gives
      have hran : ran (entryFunction (c.dialect.planTo c.depthBound) place c.assembly.session)
          c.assembly = (ExceptT.run (Reference.compileTarget _
            (c.session.targetFor place).1 true)).run ⟨.empty, [], c.library,
              { (c.session.targetFor place).2 with entryDocument := some place.document }⟩ := rfl
      rw [hran] at hmakes
      unfold Gen.execute
      generalize StateT.run _ _ = r at hmakes
      rcases r with ⟨e | f, b⟩
      · obtain ⟨h₁, h₂, h₃, h₄, h₅, h₆, h₇, h₈⟩ := hmakes
        exact ⟨⟨⟨h₁, h₂, h₃, h₄, h₅, h₆, h₇, h₈⟩, rfl, rfl⟩, trivial⟩
      · obtain ⟨hb, hg, hs, -, -, checker, -, -, -, hchecker, hasync⟩ := hmakes
        have hafter := h.absorb { c with
          library := b.library
          session := { b.session with entryDocument := none } } hb hg hs rfl rfl rfl rfl rfl
        exact ⟨hafter.1, hafter.2, checker, hchecker, hasync⟩

end Healthy

/-! ## Requests -/

/-- What a compiler may be asked for. -/
inductive Request where
  /-- To define a keyword. -/
  | keyword (d : KeywordDefinition)
  /-- To set the format of a name. -/
  | format (name : String) (f : Format)
  /-- To take up a document. -/
  | document (schema : Json) (uri : Option String)
  /-- To compile a schema. -/
  | schema (schema : Json)
  /-- To compile the schema that a URI leads to. -/
  | uri (uri : String)
  /-- To compile a schema into a module. -/
  | stored (schema : Json)
  /-- To compile a schema, taking documents from a store. -/
  | loading (store : List (String × Json)) (schema : Json)

/-- A request that defines no keyword but one by a test, by what it stands for, or by nothing. -/
def Request.Plain : Request → Prop
  | .keyword d =>
    match d.kind with
    | .code _ => False
    | .script _ => False
    | _ => True
  | _ => True

def serve (c : Compiler) : Request → Option Validator × Compiler
  | .keyword d => (none, (c.addKeyword d).2)
  | .format name f => (none, c.addFormat name f)
  | .document schema uri => (none, (c.addSchema schema uri).2)
  | .schema schema => ((c.compile schema).1.toOption, (c.compile schema).2)
  | .uri uri => ((c.getSchema uri).1.toOption, (c.getSchema uri).2)
  | .stored schema => (none, (c.compileStored schema).2)
  | .loading store schema =>
    ((c.compileLoading store schema).1.1.toOption, (c.compileLoading store schema).1.2)

theorem exists_of_any {P : Validator → Compiler → Prop} (reply : Option Validator × Compiler)
    (test : Validator → Compiler → Bool) (h : (reply.1.any fun v => test v reply.2) = true)
    (hP : ∀ v c, reply = (some v, c) → test v c = true → P v c) :
    ∃ v c, reply = (some v, c) ∧ P v c := by
  obtain ⟨_ | v, c⟩ := reply
  · cases h
  · exact ⟨v, c, rfl, hP v c rfl h⟩

def after (options : Options) (requests : List Request) : Compiler :=
  requests.foldl (fun c r => (c.serve r).2) (new options)

set_option maxRecDepth 4000 in
/-- A new compiler has the keywords that are always there. Their templates can all be read. -/
theorem new_standard : new .standard = ofDialect ⟨.standard, ⟨(Core.definitions ++
    Assertion.definitions ++ Applicator.definitions).map fun d =>
      { d with template := d.message.bind fun s => (Template.parse s).toOption }⟩, .standard⟩ := by
  rfl

def Links (v : Validator) : Prop :=
  ∃ entry isAsync, c.Enters (entry, isAsync) ∧ c.link entry isAsync = .ok v

namespace Healthy

variable {o : Options} {c : Compiler}

/-- What keeps a compiler healthy. -/
def regime (o : Options) : Regime where
  inv := Healthy o
  work := Grows
  undone := fun _ c' => c'.Healthy o
  fails := fun _ => True
  enters := fun entry c => c.Enters entry
  gives := fun r c => ∀ v, r = .ok v → c.Links v
  trans := Grows.trans
  undo := rollback
  restores := fun _ h => h
  known := fun h => h.compiled _ _
  remember := fun text h he => by
    refine ⟨{ h with compiled := fun text known hk => ?_ }, he⟩
    simp only [Assoc.get?_insert] at hk
    split at hk
    · obtain rfl := Option.some.inj hk
      exact he
    · exact h.compiled text known hk
  register := fun schema uri h =>
    ⟨(h.register schema uri).1, (h.register schema uri).2, fun _ _ => trivial⟩
  compileUri := fun uri h => h.compileUri uri
  link := fun _ he _ hv => ⟨_, _, he, hv⟩
  error := fun _ _ hv => nomatch hv
  unresolved := fun _ => trivial

theorem addKeyword (h : c.Healthy o) {d : KeywordDefinition} (hd : Request.Plain (.keyword d)) :
    (c.addKeyword d).2.Healthy o := by
  unfold Compiler.addKeyword
  split
  · rename_i v hv
    have hproper : d.Proper := by
      simp only [Request.Plain] at hd
      unfold KeywordDefinition.Proper
      cases hk : d.kind <;> rw [hk] at hd <;> trivial
    exact ⟨h.options_eq, h.coherent, h.settled, h.vocabulary.add hproper hv, h.compiled⟩
  · exact h

/-- Whatever a compiler is asked for, it stays healthy, and what it gives is a validator of its
own. -/
theorem serve (h : c.Healthy o) {r : Request} (hr : r.Plain) :
    (c.serve r).2.Healthy o ∧ ∀ v, (c.serve r).1 = some v → (c.serve r).2.Links v := by
  have hoption : ∀ {e : Except CompileError Validator} {v}, e.toOption = some v → e = .ok v := by
    rintro (e | v') v hv
    · cases hv
    · cases hv
      rfl
  cases r with
  | keyword d => exact ⟨h.addKeyword hr, fun v hv => nomatch hv⟩
  | format name f =>
    exact ⟨⟨h.options_eq, h.coherent, h.settled, h.vocabulary, h.compiled⟩, fun v hv => nomatch hv⟩
  | document schema uri =>
    exact ⟨((regime o).addSchema h schema uri).after h |>.1, fun v hv => nomatch hv⟩
  | schema schema => exact ((regime o).compile h schema).imp_right fun hv v hs => hv v (hoption hs)
  | uri uri => exact ((regime o).getSchema h uri).imp_right fun hv v hs => hv v (hoption hs)
  | stored schema =>
    refine ⟨?_, fun v hv => nomatch hv⟩
    have hentry := (((regime o).compileEntry h schema).after h).1
    simp only [Compiler.serve, compileStored]
    rcases hc : c.compileEntry schema with ⟨e | ⟨entry, isAsync⟩, c'⟩ <;> rwa [hc] at hentry
  | loading store schema =>
    exact ((regime o).loadRounds store schema _ [] h).imp_right
      fun hv v hs => hv v (hoption hs)

end Healthy

/-- What every request keeps up holds after all of them. -/
theorem after_of_serve {I : Compiler → Prop} {L : Request → Prop}
    (hserve : ∀ c r, I c → L r → I (c.serve r).2) {o : Options} (hnew : I (new o))
    (hr : ∀ r ∈ requests, L r) : I (after o requests) := by
  unfold after
  generalize new o = c at hnew
  induction requests generalizing c with
  | nil => exact hnew
  | cons r rest ih =>
    exact ih (fun r hmem => hr r (by simp [hmem])) _ (hserve c r hnew (hr r (by simp)))

theorem healthy_after (o : Options) (hr : ∀ r ∈ requests, r.Plain) : (after o requests).Healthy o :=
  after_of_serve (fun _ _ h hp => (h.serve hp).1) (.new o) hr

end Compiler
end SchemaCompiler
