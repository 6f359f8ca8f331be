import SchemaCompiler.Proofs.TypeDefinition.Parsing.Forms

/-!
# Functions of a parser

A name whose form has references is read by a function of its own, which is added when the name is
met for the first time. While its body is emitted the function counts as defined, so that names may
refer to each other in circles; that it does as the scan of its name is then assumed of the calls
inside it and shown of itself.
-/
namespace SchemaCompiler.TypeDefinition.Parser

open Gen Machine Text Assoc

variable {basis : Basis} {a b c : Assembly Progress} {st : Setting} {s : State} {cs : List Char} {rounds : Nat} {f : Name} {name : String} {form : Form}

/-! ## Bodies -/

theorem emits_position {Q : Expr → Post Progress}
    (h : Q a.session.position.code a []) : Emits position a Q :=
  .bind (emits_session (emits_pure h))

theorem returns_function {r : Expr} {code : List Stmt} {scan : (String → Scan Json) → Scan Json}
    (hb : Acts basis a b [] code (fun _ _ => True) scan fun v _ t => Holding b t r v)
    (hpos : a.session.position = .moving positionName) (hst : Serves st b) :
    Returns st.text (st.watch.invoke ⟨f, [textName, positionName],
      code ++ [.return (.array [r, .var positionName])], false⟩) (scan st.call) := by
  intro before cs s herrors hplace
  have hstart : At st.text a.session.position cs { s with
      locals := ofList (bindParams [textName, positionName]
        [.string st.text, Json.ofNat (byteLength before)]) } := by
    rw [hpos]
    exact ⟨herrors, rfl, before, hplace, rfl⟩
  refine replies_invoke ?_
  rw [← Option.bind_fun_some (scan st.call cs)]
  refine (hb.yields st hst _ cs hstart trivial).append fun y f t _ ⟨hf, hat, hle, _, hy⟩ =>
    .inl ⟨hf, ?_⟩
  rw [hb.later.position_eq hpos] at hat
  obtain ⟨after, hafter, hbehind⟩ := hat.place
  exact yields_return (gives_array (.cons hy.gives (.cons (gives_var hbehind) .nil)))
    ⟨_, rfl, hat.errors_eq.trans herrors.symm, after, hafter, hle, rfl⟩

/-! ## Names -/

theorem Finished.of (h : Finished basis a name f)
    (hfunctions : ∀ g fd, get? g a.library.functions = some fd →
      get? g b.library.functions = some fd)
    (hserves : ∀ st, Serves st b → Serves st a) : Finished basis b name f := by
  obtain ⟨form, fd, hform, hfd, hreturns⟩ := h
  exact ⟨form, fd, hform, hfunctions f fd hfd, fun st hst => hreturns st (hserves st hst)⟩

/-- A name that has been given to a function is not taken, neither before nor by what the body of the
function adds. -/
theorem get?_functions_of_named {l : Library} (ha : a.library.Tidy)
    (hf : Named a parseStem f b) (hgrows : b.library.Grows l) : get? f l.functions = none := by
  obtain ⟨k, rfl, hk⟩ := hf.name_eq
  cases hget : get? _ l.functions with
  | none => rfl
  | some g =>
    rcases hgrows.new _ _ hget with hold | hgave
    · obtain ⟨stem, i, hi, hlt, -⟩ := ha.functions _ _ (hf.functions_eq ▸ hold)
      exact absurd ⟨stem, i, hi, hlt⟩ hf.not_given
    · exact absurd ⟨parseStem, k, rfl, hk⟩ hgave

theorem grows_function {l : Library} (ha : a.library.Tidy)
    (hf : Named a parseStem f b) (hgrows : b.library.Grows l) (fd : FunctionDef) :
    a.library.Grows { l with functions := insert f fd l.functions } := by
  have hnone := get?_functions_of_named ha hf hgrows
  obtain ⟨k, rfl, hk⟩ := hf.name_eq
  exact Library.grows_insert rfl (Nat.lt_of_lt_of_le hk (hgrows.names_le _)) (by decide) fd hnone
    (hf.grows.trans hgrows) hf.not_given

theorem later_define {start d : Assembly Progress}
    {fd : FunctionDef} (ha : a.library.Tidy) (hform : get? name basis.definitions = some form)
    (hnew : get? name a.session.defined = none) (hf : Named a parseStem f b)
    (hc : Later basis start c) (hstart : start.library = b.library)
    (hdefined : start.session.defined = insert name f a.session.defined) (hnames : d.names = a.names)
    (hlibrary : d.library = { c.library with functions := insert f fd c.library.functions })
    (hsession : d.session = ⟨c.session.defined, a.session.position⟩)
    (hreturns : ∀ st, Serves st c →
      Returns st.text (st.watch.invoke fd) (form.scan basis.ws (basis.onRef st.call))) :
    Later basis a d := by
  have hgrows := hc.grows
  rw [hstart] at hgrows
  have hnone := get?_functions_of_named ha hf hgrows
  have hfunctions : ∀ g gd, get? g c.library.functions = some gd →
      get? g d.library.functions = some gd := by
    intro g gd hg
    have hne : g ≠ f := by
      rintro rfl
      rw [hnone] at hg
      cases hg
    rw [hlibrary]
    exact (get?_insert_of_ne hne _ _).trans hg
  have hserves : ∀ st, Serves st d → Serves st c := fun st hst =>
    ⟨hst.small, hst.rounds, by simpa [hlibrary] using hst.routines,
      by simpa [hsession] using hst.calls⟩
  refine ⟨hnames ▸ le_rfl, ?_, hsession ▸ .refl _ _, ?_, ?_, ?_⟩
  · rw [hlibrary]
    exact grows_function ha hf hgrows fd
  · simpa only [Placed, hnames, hsession] using id
  · intro n g hg
    have hne : n ≠ name := by
      rintro rfl
      rw [hnew] at hg
      cases hg
    rw [hsession]
    exact hc.defined n g (by rw [hdefined, get?_insert_of_ne hne]; exact hg)
  · intro n g hg
    rw [hsession] at hg
    rcases hc.finished n g hg with hold | hfinished
    · rw [hdefined] at hold
      by_cases hn : n = name
      · subst hn
        rw [get?_insert_self] at hold
        cases hold
        refine .inr ⟨form, fd, hform, ?_, fun st hst => hreturns st (hserves st hst)⟩
        rw [hlibrary]
        exact get?_insert_self _ _ _
      · rw [get?_insert_of_ne hn] at hold
        exact .inl hold
    · exact .inr (hfinished.of hfunctions hserves)

/-- A name has a function, and no code has been emitted. -/
structure Defines (basis : Basis) (a : Assembly Progress) (name : String) (f : Name)
    (b : Assembly Progress) (code : List Stmt) : Prop where
  code_eq : code = []
  later : Later basis a b
  position_eq : b.session.position = a.session.position
  defined : get? name b.session.defined = some f

/-- The function of a name is added, and does as the scan of the name if the functions it calls
do. -/
theorem emits_define {onRef : String → Emit Expr}
    (ha : Ready basis (rounds + 1) a) (hform : get? name basis.definitions = some form)
    (hnew : get? name a.session.defined = none)
    (hread : ∀ b, Ready basis rounds b → ReadsValue basis (ofForm basis.options onRef form) b
      fun call => form.scan basis.ws (basis.onRef call)) :
    Emits (define basis.options onRef name form) a (Defines basis a name) := by
  refine .bind (emits_named fun f b hf => .bind (emits_session ?_))
  refine .bind (emits_setSession (.bind (emits_function ?_)))
  rw [hf.session_eq]
  have hready : Ready basis rounds { b with
      names := .empty
      session := ⟨insert name f a.session.defined, .moving positionName⟩ } := by
    refine ⟨?_, hf.grows.tidy ha.tidy, ?_⟩
    · rintro _ ⟨⟩
      exact ⟨Counters.old_of_not_endsInDigit _ (by decide), by decide⟩
    · exact Nat.le_of_lt_succ (Nat.lt_of_lt_of_le (room_insert hform hnew) ha.room)
  refine .bind ((hread _ hready).mono fun r c code hc => ?_)
  refine .bind (emits_position (emits_emit (.bind_pure (emits_modifySession ⟨rfl, ?_, rfl, ?_⟩))))
  · refine later_define ha.tidy hform hnew hf hc.later rfl rfl hf.names_eq rfl rfl fun st hst => ?_
    rw [hc.later.position_eq rfl]
    exact returns_function hc rfl hst
  · exact hc.later.defined _ _ (get?_insert_self _ _ _)

def Basis.Known (basis : Basis) (name : String) : Prop :=
  contains name basis.definitions = true

theorem readsValue_call {x : Emit Name} (ha : Ready basis rounds a)
    (hform : get? name basis.definitions = some form) (href : form.hasRef = true)
    (hx : Emits x a (Defines basis a name)) : ReadsValue basis (do
      let function ← x let pos ← promote
      let result ← constant resultStem (.callName function [.var textName, .var pos])
      assign pos (.index (.var result) (.nat 1))
      return .var (← constant valueStem (.index (.var result) (.nat 0)))) a
      fun call => basis.onRef call name := by
  have hscan : ∀ call, basis.onRef call name = call name := fun call => by
    simp [Basis.onRef, Schema.scanRef, hform, href]
  simp only [hscan]
  refine .bind (hx.mono fun f b code ⟨hcode, hab, hsame, hf⟩ => ?_)
  subst hcode
  have hb' := ha.later hab
  refine .bind ((emits_promote hb').mono fun pos c code₁ ⟨hpos, hc⟩ => ?_)
  refine emits_call (hb'.later hc.later) (fun call => call name) hpos
    (fun st hst => hst.calls name f (hc.later.defined name f hf)) fun value d code₂ hvalue hd => ?_
  refine emits_pure ?_
  rw [List.append_nil]
  exact (hc.prepare steady_true (hd.mono (fun _ _ h => h) fun _ _ _ h => .var hvalue h)).earlier hab
    hsame

theorem refsRead_of_define (hdefinitions : ∀ m ∈ basis.definitions, m.2.WellFormed basis.Known)
    (hdefine : ∀ a name form, Ready basis rounds a →
      get? name basis.definitions = some form → get? name a.session.defined = none →
      Emits (match rounds with
        | 0 => throw (.endless name)
        | rounds + 1 =>
          define basis.options (ofName basis.options basis.definitions rounds) name form) a
        (Defines basis a name)) :
    RefsRead basis rounds basis.Known (ofName basis.options basis.definitions rounds) basis.onRef := by
  intro name hname a ha
  obtain ⟨form, hform⟩ := Option.isSome_iff_exists.1 hname
  rw [ofName, hform]
  cases href : form.hasRef with
  | false =>
    have hscan : ∀ call, basis.onRef call name = form.scan basis.ws fun _ => Scan.fails := fun call => by
      simp [Basis.onRef, Schema.scanRef, hform, href]
    simp only [hscan, href]
    have hnone : RefsRead basis rounds (fun _ => False) (fun inner => throw (undefinedRef inner))
        fun _ _ => Scan.fails := fun _ hn => hn.elim
    exact readsValue_form hnone form
      (.of_not_hasRef form href (hdefinitions _ (mem_of_get?_eq_some hform))) a ha
  | true =>
    simp only [href]
    refine .bind (emits_session ?_)
    cases hdefined : get? name a.session.defined with
    | some f => exact readsValue_call ha hform href (emits_pure ⟨rfl, .refl a, rfl, hdefined⟩)
    | none =>
      have hadd := hdefine a name form ha hform hdefined
      cases rounds with
      | zero => exact readsValue_call ha hform href hadd
      | succ rounds => exact readsValue_call ha hform href hadd

theorem refsRead_ofName
    (hdefinitions : ∀ m ∈ basis.definitions, m.2.WellFormed basis.Known) (rounds : Nat) :
    RefsRead basis rounds basis.Known (ofName basis.options basis.definitions rounds) basis.onRef := by
  induction rounds with
  | zero =>
    refine refsRead_of_define hdefinitions fun a name form ha hform hnew => ?_
    have hroom := ha.room
    have hless := room_insert hform hnew (f := textName)
    omega
  | succ rounds ih =>
    refine refsRead_of_define hdefinitions fun a name form ha hform hnew => ?_
    exact emits_define ha hform hnew
      (readsValue_form ih form (hdefinitions _ (mem_of_get?_eq_some hform)))

/-! ## The entry function -/

def Basis.scanText (basis : Basis) (root : Form) (call : String → Scan Json) : Scan Json := do
  let v ← root.scan basis.ws (basis.onRef call)
  Scan.skip basis.ws
  Scan.check (← get).isEmpty
  return v

/-- A program has the functions of its names and an entry function that reads whole texts. -/
structure Complete (basis : Basis) (root : Form) (entry : Name) (a : Assembly Progress) : Prop where
  tidy : a.library.Tidy
  finished : ∀ name f, get? name a.session.defined = some f → Finished basis a name f
  entry : ∃ fd, get? entry a.library.functions = some fd ∧ ∀ st, Serves st a →
    ∀ s, s.errors = [] → Replies (onText st.text) (st.watch.invoke fd) [.string st.text] s
      (basis.scanText root st.call st.text.toList)
      fun y v => v = .array [y.1, Json.ofNat st.text.utf8ByteSize]

theorem truth_atEnd {p : Position} (hst : Serves st a) (hat : At st.text p cs s) :
    Truth st.watch (.differs (.len (.var textName)) p.code) (!cs.isEmpty) s := by
  obtain ⟨before, hplace, hbehind⟩ := hat.place
  have hle := Primitive.byteLength_add hplace
  have hsmall := hst.small
  have hlen : Gives st.watch (.len _) _ s :=
    gives_len (gives_var hat.text_eq) rfl
  have hdiffers := (gives_differs hlen hbehind.gives).truth
  rw [strictEq_ofNat hst.small (by omega)] at hdiffers
  have hend : (!decide (st.text.utf8ByteSize = byteLength before)) = !cs.isEmpty := by
    cases cs with
    | nil =>
      simp [← hle]
    | cons c rest =>
      have hpos := c.utf8Size_pos
      rw [byteLength_cons] at hle
      simp
      omega
  rwa [hend] at hdiffers

theorem emits_emitEntry (options : Options) {schema : Schema} (hschema : schema.WellFormed) :
    Emits (emitEntry options schema) ⟨.empty, [], .empty, ⟨[], .known 0⟩⟩ fun entry a _ =>
      Complete ⟨options, schema.definitions⟩ schema.root entry a := by
  have htidy := Library.tidy_empty
  refine .bind (emits_named fun f b hf => .bind_pure (emits_function ?_))
  have hready : Ready ⟨options, schema.definitions⟩ schema.definitions.length
      { b with names := .empty } := by
    refine ⟨?_, hf.grows.tidy htidy, List.length_filter_le _ _⟩
    intro n hn
    rw [hf.session_eq] at hn
    cases hn
  have hrefs : RefsRead ⟨options, schema.definitions⟩ schema.definitions.length _ _ _ :=
    refsRead_ofName hschema.definitions _
  refine .bind ((readsValue_form hrefs schema.root hschema.root _ hready).mono
    fun r c code₁ hc => ?_)
  refine .bind ((emits_skipBlanks (hready.later hc.later)).mono fun _ d code₂ hd => ?_)
  refine .bind (emits_position (.bind (emits_ifThen (emits_failHere (emits_emit ?_)))))
  have hbd := hc.later.trans hd.later
  have hnone := get?_functions_of_named htidy hf hbd.grows
  refine ⟨(grows_function htidy hf hbd.grows _).tidy htidy, fun name g hg => ?_,
    _, get?_insert_self _ _ _, fun st hst s herrors => replies_invoke ?_⟩
  · rcases hbd.finished name g hg with hold | hfinished
    · rw [show b.session = _ from hf.session_eq] at hold
      cases hold
    · refine hfinished.of (fun h hd hget => ?_) fun st hst =>
        ⟨hst.small, hst.rounds, hst.routines, hst.calls⟩
      refine (get?_insert_of_ne ?_ _ _).trans hget
      rintro rfl
      rw [hnone] at hget
      cases hget
  · have hstd : Serves st d := ⟨hst.small, hst.rounds, hst.routines, hst.calls⟩
    have hstart : At st.text { b with names := .empty }.session.position st.text.toList { s with
        locals := ofList (bindParams [textName] [.string st.text]) } := by
      rw [hf.session_eq]
      exact ⟨herrors, rfl, [], rfl, rfl⟩
    simp only [Basis.scanText, Scan.bind_apply, Scan.get_apply, Option.bind_some]
    refine (hc.yields st (hstd.of hd.later) _ _ hstart trivial).append
      fun y f s₁ _ ⟨hf, hat₁, _, _, hy⟩ => .inl ⟨hf, ?_⟩
    refine ((hd.keep steady_holding).yields st hstd s₁ y.2 hat₁ hy).append
      fun z f s₂ _ ⟨hf, hat₂, _, _, _, hy⟩ => .inl ⟨hf, ?_⟩
    refine yields_branch_cons (truth_atEnd hstd hat₂) ?_
    cases hend : z.2.isEmpty with
    | false => exact yields_complain hat₂.marks
    | true =>
      obtain ⟨before, hplace, hbehind⟩ := hat₂.place
      have hsize := Primitive.byteLength_add hplace
      rw [List.isEmpty_iff.1 hend, byteLength_nil, Nat.add_zero] at hsize
      exact yields_return (gives_array (.cons hy.gives (.cons hbehind.gives .nil)))
        ⟨_, rfl, hat₂.errors_eq.trans herrors.symm, by rw [hsize]⟩

end SchemaCompiler.TypeDefinition.Parser
