import SchemaCompiler.Proofs.Emission
import SchemaCompiler.Proofs.TypeDefinition.Places
import SchemaCompiler.Proofs.TypeDefinition.WellFormed
import SchemaCompiler.TypeDefinition.Parser

/-!
# What emitted code of a parser does

Code of a parser is compared with a scan. `Does` says that a piece of code, run where the program
stands in front of a text, ends where the scan ends, and stops where the scan fails; `Acts` is the
case of code that ends normally. On the way the code reads only at places of the text, and it stops
with a complaint about such a place. The functions that names stand for are not looked into: `Serves`
assumes of each that it does as the scan of its name, and `Later` keeps that those added by an
emission do so when this is assumed.
-/
namespace SchemaCompiler.TypeDefinition.Parser

open Gen Machine Text

variable {n pos f m : Name} {σ κ μ : Type} {p : Position} {text token message : String}
  {code code' yes no : List Stmt} {w : Watch} {e place : Expr} {before : List Char}
  {q constant : Bool} {touched' : List Name} {d : Assembly Progress} {Q : Unit → Post Progress}
  {post' : κ → List Char → State → Prop} {y : κ} {inv : σ → State → Prop} {member : Emit Unit}

/-! ## Standing in a text -/

def Position.IsBehind (p : Position) (before : List Char) (s : State) : Prop :=
  match p with
  | known n => n = byteLength before
  | moving name => s.get? name = some (Json.ofNat (byteLength before))

/-- The program holds the text and stands in front of `cs`. Parsers record no errors. -/
structure At (text : String) (p : Position) (cs : List Char) (s : State) : Prop where
  errors_eq : s.errors = []
  text_eq : s.get? textName = some (.string text)
  place : ∃ before, text.toList = before ++ cs ∧ p.IsBehind before s

theorem Position.IsBehind.gives (h : p.IsBehind before s) :
    Gives w p.code (Json.ofNat (byteLength before)) s := by
  cases p with
  | known n =>
    obtain rfl : n = byteLength before := h
    exact gives_lit _
  | moving name => exact gives_var h

def known? (s : State) : Expr → Option Json
  | .var n => s.get? n
  | .lit v => some v
  | _ => none

def Marks (text : String) (s : State) (e : Expr) : Prop :=
  ∃ n ≤ text.utf8ByteSize, known? s e = some (Json.ofNat n)

/-- What is asked of a run on a text: it reads only at places of the text, and it stops early only
with a complaint about such a place, or because calls go too deep. -/
def onText (text : String) : Machine.Terms where
  admits e s := ∀ p, e.place? = some p → Marks text s p
  stops err := (∃ v, err = .thrown v ∧ Primitive.Complains text v) ∨
    ∃ limit, err = .fault (.depthExceeded limit)
  plain h p hp := by rw [h] at hp; cases hp

theorem At.marks (h : At text p cs s) : Marks text s p.code := by
  obtain ⟨before, hplace, hbehind⟩ := h.place
  refine ⟨byteLength before, by have := Primitive.byteLength_add hplace; omega, ?_⟩
  cases p with
  | known n =>
    obtain rfl : n = byteLength before := hbehind
    rfl
  | moving name => exact hbehind

theorem At.admits (h : At text p cs s) (he : e.place? = some p.code) :
    (onText text).admits e s := by
  intro q hq
  rw [he] at hq
  cases hq
  exact h.marks

theorem Marks.gives (h : Marks text s e) : ∃ n ≤ text.utf8ByteSize,
    Gives w e (Json.ofNat n) s := by
  obtain ⟨n, hn, he⟩ := h
  refine ⟨n, hn, ?_⟩
  cases e with
  | var m => exact gives_var he
  | lit v =>
    cases he
    exact gives_lit _
  | _ => cases he

/-- A call gives the value that a scan reads and the place behind it, and stops early where the scan
fails. -/
def Returns (text : String) (call : Call) (scan : Scan Json) : Prop :=
  ∀ before cs s, s.errors = [] → text.toList = before ++ cs →
    Replies (onText text) call [.string text, Json.ofNat (byteLength before)] s (scan cs) fun y v =>
      ∃ after, text.toList = after ++ y.2 ∧ y.2.length ≤ cs.length ∧
        v = .array [y.1, Json.ofNat (byteLength after)]

/-! ## What code refers to -/

/-- What a parser runs in: the environment and where calls look, the text, and how the values of names
are read. -/
structure Setting where
  env : Env
  inside : Inside
  text : String
  call : String → Scan Json

def Setting.watch (st : Setting) : Watch := ⟨onText st.text, st.env, st.inside⟩

theorem returns_routine {st : Setting} {routine : Primitive} (h : st.watch.Routine n routine)
    (hr : routine = .parseString ∨ routine = .parseNumber ∨ routine = .parseValue) :
    Returns st.text (st.watch.call n) (Scan.value routine) := by
  intro before cs s _ hplace
  refine ⟨fun x u hx => absurd hx (h.inside _ _ _ _), ?_⟩
  have hcall := Primitive.call_reader hr hplace
  cases hscan : Scan.value routine cs with
  | some read =>
    rw [hscan] at hcall
    obtain ⟨after, hafter, hlength, hcall⟩ := hcall
    exact ⟨_, ⟨after, hafter, hlength, rfl⟩, (ran_callName_routine h _ _).trans (by rw [hcall]; rfl)⟩
  | none =>
    rw [hscan] at hcall
    obtain ⟨e, he, hcall⟩ := hcall
    exact ⟨.thrown e, s, (ran_callName_routine h _ _).trans (by rw [hcall]; rfl), .inl ⟨e, rfl, he⟩⟩

/-- An environment has the routines of an assembly, and its functions do as the scans of their
names. The text is small enough for its positions to be exact. -/
structure Serves (st : Setting) (a : Assembly Progress) : Prop where
  small : st.text.utf8ByteSize ≤ recordLimit
  rounds : st.env.rounds = roundLimit
  routines : ∀ routine k, Library.routineEntry routine k ∈ a.library.scope.entries →
    st.watch.Routine (routineStem.name k) routine
  calls : ∀ name f, Assoc.get? name a.session.defined = some f →
    Returns st.text (st.watch.call f) (st.call name)

/-- What a parser is made of besides the form that it reads. -/
structure Basis where
  options : Options
  definitions : List (String × Form)

abbrev Basis.ws (basis : Basis) : Bool := basis.options.whitespace

def Basis.onRef (basis : Basis) (call : String → Scan Json) : String → Scan Json :=
  Schema.scanRef basis.ws basis.definitions call

/-- The function of a name is part of the program, and reads a value of the form of the name. -/
def Finished (basis : Basis) (a : Assembly Progress) (name : String) (f : Name) : Prop :=
  ∃ form fd, Assoc.get? name basis.definitions = some form ∧
    Assoc.get? f a.library.functions = some fd ∧
    ∀ st, Serves st a →
      Returns st.text (st.watch.invoke fd) (form.scan basis.ws (basis.onRef st.call))

/-! ## Variables -/

def Settled (a : Assembly Progress) (n : Name) : Prop :=
  a.names.Old n ∧ a.session.position ≠ .moving n

/-- The variables in which the position is held are among those given, and are not that of the
text. -/
def Placed (a : Assembly Progress) : Prop :=
  ∀ n, a.session.position = .moving n → a.names.Old n ∧ n ≠ textName

theorem settled_textName {a : Assembly Progress} (h : Placed a) : Settled a textName :=
  ⟨Counters.old_of_not_endsInDigit _ (by decide), fun hp => (h _ hp).2 rfl⟩

/-- What the position may become: one that is known is counted on or becomes a new variable, and a
variable stays. -/
def Position.Follows (names : Counters) : Position → Position → Prop
  | .moving n, q => q = .moving n
  | .known _, .known _ => True
  | .known _, .moving n => ¬ names.Old n

def Keeps (a : Assembly Progress) (touched : List Name) (s t : State) : Prop :=
  ∀ n, Settled a n → n ∉ touched → t.get? n = s.get? n

section

variable (basis : Basis)

/-- What an emission does to an assembly: names and values are added, and functions for names, each
of which is finished. -/
structure Later (a b : Assembly Progress) : Prop where
  names_le : a.names ≤ b.names
  grows : a.library.Grows b.library
  follows : a.session.position.Follows a.names b.session.position
  placed : Placed a → Placed b
  defined : ∀ name f, Assoc.get? name a.session.defined = some f →
    Assoc.get? name b.session.defined = some f
  finished : ∀ name f, Assoc.get? name b.session.defined = some f →
    Assoc.get? name a.session.defined = some f ∨ Finished basis b name f

/-- Code from one assembly to another does as a scan, from states of `pre` to states of `post`. It ends
in the flow that goes with the outcome, and changes no variables but those touched. -/
structure Does {κ : Type} (a b : Assembly Progress) (touched : List Name) (code : List Stmt)
    (pre : List Char → State → Prop) (scan : (String → Scan Json) → Scan κ) (flow : κ → Flow)
    (post : κ → List Char → State → Prop) : Prop where
  later : Later basis a b
  yields : ∀ st, Serves st b → ∀ s cs, At st.text a.session.position cs s → pre cs s →
    Yields st.watch code s (scan st.call cs) fun y f t => f = flow y.1 ∧
      At st.text b.session.position y.2 t ∧ y.2.length ≤ cs.length ∧ Keeps a touched s t ∧
        post y.1 y.2 t

abbrev Acts {κ : Type} (a b : Assembly Progress) (touched : List Name) (code : List Stmt)
    (pre : List Char → State → Prop) (scan : (String → Scan Json) → Scan κ)
    (post : κ → List Char → State → Prop) : Prop :=
  Does basis a b touched code pre scan (fun _ => .normal) post

/-- What an emission starts from: there is room for as many functions as there are names without
one. -/
structure Ready (rounds : Nat) (a : Assembly Progress) : Prop where
  placed : Placed a
  tidy : a.library.Tidy
  room : room basis.definitions a.session.defined ≤ rounds

end

variable {basis : Basis} {a b c : Assembly Progress} {st : Setting} {touched : List Name}
  {s t u : State} {cs : List Char} {rounds : Nat}

/-! ## Going on -/

theorem Serves.of (h : Serves st b) (hab : Later basis a b) : Serves st a where
  small := h.small
  rounds := h.rounds
  routines := fun routine k he => h.routines routine k (hab.grows.entries he)
  calls := fun name f hf => h.calls name f (hab.defined name f hf)

theorem Finished.mono {name : String} (h : Finished basis a name f) (hab : Later basis a b) :
    Finished basis b name f := by
  obtain ⟨form, fd, hform, hfd, hreturns⟩ := h
  exact ⟨form, fd, hform, hab.grows.functions f fd hfd, fun st hst => hreturns st (hst.of hab)⟩

theorem Position.Follows.refl (names : Counters) (p : Position) : p.Follows names p := by
  cases p with
  | known n => trivial
  | moving n => rfl

theorem Position.Follows.trans {names names' : Counters} {q r : Position} (hn : names ≤ names')
    (h : p.Follows names q) (h' : q.Follows names' r) : p.Follows names r := by
  cases p with
  | moving n =>
    obtain rfl : q = .moving n := h
    exact h'
  | known k =>
    cases q with
    | moving n =>
      obtain rfl : r = .moving n := h'
      exact h
    | known k' =>
      cases r with
      | known k'' => trivial
      | moving n => exact fun ho => h' (ho.mono hn)

theorem Later.refl (a : Assembly Progress) : Later basis a a where
  names_le := le_rfl
  grows := .refl _
  follows := .refl _ _
  placed := id
  defined := fun _ _ h => h
  finished := fun _ _ h => .inl h

theorem Later.trans (h : Later basis a b) (h' : Later basis b c) :
    Later basis a c where
  names_le := le_trans h.names_le h'.names_le
  grows := h.grows.trans h'.grows
  follows := h.follows.trans h.names_le h'.follows
  placed := fun hp => h'.placed (h.placed hp)
  defined := fun name f hf => h'.defined name f (h.defined name f hf)
  finished := fun name f hf => by
    rcases h'.finished name f hf with hb | hc
    · rcases h.finished name f hb with ha | hb
      · exact .inl ha
      · exact .inr (hb.mono h')
    · exact .inr hc

theorem Later.settled (h : Later basis a b) (hn : Settled a n) : Settled b n := by
  refine ⟨hn.1.mono h.names_le, fun hb => ?_⟩
  have hf := h.follows
  rw [hb] at hf
  cases ha : a.session.position with
  | moving m =>
    rw [ha] at hf
    obtain rfl : n = m := Position.moving.inj hf
    exact hn.2 ha
  | known k =>
    rw [ha] at hf
    exact hf hn.1

theorem Later.position_eq (h : Later basis a b)
    (ha : a.session.position = .moving n) : b.session.position = .moving n := by
  have hf := h.follows
  rwa [ha] at hf

theorem Ready.later (h : Ready basis rounds a) (hab : Later basis a b) :
    Ready basis rounds b where
  placed := hab.placed h.placed
  tidy := hab.grows.tidy h.tidy
  room := Nat.le_trans (room_le _ hab.defined) h.room

theorem Keeps.refl (a : Assembly Progress) (touched : List Name) (s : State) :
    Keeps a touched s s :=
  fun _ _ _ => rfl

theorem Keeps.trans (h : Keeps a touched s t) (h' : Keeps a touched t u) : Keeps a touched s u :=
  fun n hn ht => (h' n hn ht).trans (h n hn ht)

theorem Keeps.of_later (h : Keeps b touched s t) (hab : Later basis a b) : Keeps a touched s t :=
  fun n hn ht => h n (hab.settled hn) ht

theorem Keeps.mono (h : Keeps a touched s t) (hs : touched ⊆ touched') : Keeps a touched' s t :=
  fun n hn ht => h n hn fun hm => ht (hs hm)

/-! ## New variables -/

theorem later_fresh (h : Fresh a n b) : Later basis a b where
  names_le := h.names_le
  grows := h.library_eq ▸ .refl _
  follows := h.session_eq ▸ .refl _ _
  placed := fun hp m hm => by
    rw [h.session_eq] at hm
    exact ⟨(hp m hm).1.mono h.names_le, (hp m hm).2⟩
  defined := fun _ _ hf => h.session_eq ▸ hf
  finished := fun _ _ hf => .inl (h.session_eq ▸ hf)

theorem settled_fresh (hp : Placed a) (h : Fresh a n b) : Settled b n :=
  ⟨h.old, fun hn => h.not_old (hp n (h.session_eq ▸ hn)).1⟩

theorem Settled.ne_fresh (hn : Settled a n) (h : Fresh a m b) : n ≠ m :=
  fun he => h.not_old (he ▸ hn.1)

theorem fresh_ne_textName (hp : Placed a) (h : Fresh a n b) : n ≠ textName :=
  ((settled_textName hp).ne_fresh h).symm

theorem Ready.fresh (ha : Ready basis rounds a) (h : Fresh a n b) :
    Later basis a b ∧ Ready basis rounds b ∧ Settled b n ∧ n ≠ textName :=
  ⟨later_fresh h, ha.later (later_fresh h), settled_fresh ha.placed h, fresh_ne_textName ha.placed h⟩

theorem Keeps.put (h : Keeps a touched s t) (hn : Settled a n → n ∈ touched) (v : Json) :
    Keeps a touched s (t.put n v) := by
  intro m hm ht
  have hne : m ≠ n := by
    rintro rfl
    exact ht (hn hm)
  rw [State.get?_put_of_ne hne, h m hm ht]

theorem not_settled_fresh (hab : Later basis a b) (h : Fresh b n c) : ¬ Settled a n :=
  fun hn => h.not_old (hab.settled hn).1

theorem not_settled_position (h : a.session.position = .moving n) : ¬ Settled a n :=
  fun hn => hn.2 h

theorem keeps_put_fresh (h : Fresh a n b) (s : State) (v : Json) : Keeps a touched s (s.put n v) :=
  (Keeps.refl a touched s).put (fun hn => absurd rfl (hn.ne_fresh h)) v

theorem keeps_put_position (h : a.session.position = .moving n) (s : State) (v : Json) :
    Keeps a touched s (s.put n v) :=
  (Keeps.refl a touched s).put (fun hn => absurd h hn.2) v

theorem At.put (h : At text p cs s) (hn : n ≠ textName)
    (hp : p ≠ .moving n) (v : Json) : At text p cs (s.put n v) := by
  obtain ⟨herrors, htext, before, hplace, hbehind⟩ := h
  refine ⟨herrors, (State.get?_put_of_ne hn.symm s v).trans htext, before, hplace, ?_⟩
  cases p with
  | known k => exact hbehind
  | moving m =>
    have hne : m ≠ n := by
      rintro rfl
      exact hp rfl
    exact (State.get?_put_of_ne hne s v).trans hbehind

theorem At.put_fresh (h : At st.text a.session.position cs s) (hp : Placed a)
    (hn : Fresh a n b) (v : Json) : At st.text b.session.position cs (s.put n v) := by
  rw [hn.session_eq]
  exact h.put (fresh_ne_textName hp hn) (fun he => hn.not_old (hp n he).1) v

theorem At.put_settled (h : At st.text a.session.position cs s) (hn : Settled a n)
    (htext : n ≠ textName) (v : Json) : At st.text a.session.position cs (s.put n v) :=
  h.put htext hn.2 v

theorem At.put_position (h : At text p cs s) (hn : n ≠ textName) {rest : List Char}
    (hplace : text.toList = before ++ rest) :
    At text (.moving n) rest (s.put n (Json.ofNat (byteLength before))) :=
  ⟨h.errors_eq, (State.get?_put_of_ne hn.symm s _).trans h.text_eq, before, hplace,
    State.get?_put_self s n _⟩

/-! ## Code as scans -/

variable {pre pre' : List Char → State → Prop} {scan : (String → Scan Json) → Scan κ}
  {flow : κ → Flow} {post : κ → List Char → State → Prop}

/-- What is said of the text and of settled variables other than those touched, and stays true as the
text gets shorter. -/
def Steady (a : Assembly Progress) (touched : List Name) (inv : List Char → State → Prop) : Prop :=
  ∀ cs cs' s t, Keeps a touched s t → cs'.length ≤ cs.length → inv cs s → inv cs' t

theorem steady_true : Steady a touched fun _ _ => True := fun _ _ _ _ _ _ _ => trivial

theorem steady_get {v : Option Json} (hn : Settled a n) (hm : n ∉ touched) :
    Steady a touched fun _ s => s.get? n = v :=
  fun _ _ _ _ hk _ h => (hk n hn hm).trans h

def Marked (n : Name) (s : State) : Prop :=
  ∀ text, s.get? textName = some (.string text) → Marks text s (.var n)

theorem At.marked_put (h : At text (.moving pos) cs s) (hn : n ≠ textName) :
    ∃ v, Gives w (.var pos) v s ∧ Marked n (s.put n v) := by
  obtain ⟨before, hplace, hbehind⟩ := h.place
  refine ⟨_, gives_var hbehind, fun text' htext => ⟨byteLength before, ?_, State.get?_put_self _ _ _⟩⟩
  rw [State.get?_put_of_ne hn.symm, h.text_eq] at htext
  cases htext
  have hsize := Primitive.byteLength_add hplace
  omega

theorem Marked.put (h : Marked n s) (hn : n ≠ m) (hm : m ≠ textName) (v : Json) :
    Marked n (s.put m v) := by
  intro text htext
  rw [State.get?_put_of_ne hm.symm] at htext
  obtain ⟨k, hle, hget⟩ := h text htext
  exact ⟨k, hle, (State.get?_put_of_ne hn s v).trans hget⟩

theorem steady_marked (ha : Placed a) (hn : Settled a n) (hm : n ∉ touched)
    (ht : textName ∉ touched) : Steady a touched fun _ s => Marked n s := by
  intro _ _ s t hk _ h text htext
  obtain ⟨k, hle, hget⟩ := h text ((hk _ (settled_textName ha) ht).symm.trans htext)
  exact ⟨k, hle, (hk n hn hm).trans hget⟩

theorem steady_length (k : Nat) : Steady a touched fun cs _ => cs.length ≤ k :=
  fun _ _ _ _ _ hle h => Nat.le_trans hle h

theorem Steady.and (h : Steady a touched pre) (h' : Steady a touched pre') :
    Steady a touched fun cs s => pre cs s ∧ pre' cs s :=
  fun cs cs' s t hk hle hs => ⟨h cs cs' s t hk hle hs.1, h' cs cs' s t hk hle hs.2⟩

theorem Steady.later (h : Steady a touched pre) (hab : Later basis a b) : Steady b touched pre :=
  fun cs cs' s t hk => h cs cs' s t (hk.of_later hab)

section

variable (h : Does basis a b touched code pre scan flow post)

include h

theorem Does.conclude {k : κ → Scan μ} {flow' : μ → Flow} {post' : μ → List Char → State → Prop}
    (hk : ∀ call cs s y rest t, pre cs s → scan call cs = some (y, rest) → post y rest t →
      ∃ z, k y rest = some (z, rest) ∧ flow' z = flow y ∧ post' z rest t) :
    Does basis a b touched code pre (fun call => scan call >>= k) flow' post' := by
  refine ⟨h.later, fun st hst s cs hat hs => ?_⟩
  refine (h.yields st hst s cs hat hs).conclude fun y f t hy ⟨hf, hat', hlength, hkeeps, hpost⟩ => ?_
  obtain ⟨z, hz, hflow, hpost'⟩ := hk _ cs s y.1 y.2 t hs hy hpost
  exact ⟨(z, y.2), hz, hf.trans hflow.symm, hat', hlength, hkeeps, hpost'⟩

theorem Does.mono (hpre : ∀ cs s, pre' cs s → pre cs s)
    (hpost : ∀ y rest t, post y rest t → post' y rest t) :
    Does basis a b touched code pre' scan flow post' :=
  ⟨h.later, fun st hst s cs hat hs => (h.yields st hst s cs hat (hpre cs s hs)).mono
    fun y _ t _ ⟨hf, hat', hlength, hkeeps, hy⟩ => ⟨hf, hat', hlength, hkeeps, hpost y.1 y.2 t hy⟩⟩

theorem Does.under (hpre : ∀ cs s, pre' cs s → pre cs s) :
    Does basis a b touched code pre' scan flow post :=
  h.mono hpre fun _ _ _ hy => hy

theorem Does.learn {known : κ → Prop}
    (hk : ∀ call cs y rest, scan call cs = some (y, rest) → known y) :
    Does basis a b touched code pre scan flow fun y rest t => known y ∧ post y rest t :=
  ⟨h.later, fun st hst s cs hat hs => (h.yields st hst s cs hat hs).mono
    fun y _ _ hy ⟨hf, hat', hlength, hkeeps, hpost⟩ =>
      ⟨hf, hat', hlength, hkeeps, hk _ cs y.1 y.2 hy, hpost⟩⟩

theorem Does.frame (hs : Steady a touched pre') :
    Does basis a b touched code (fun cs s => pre cs s ∧ pre' cs s) scan flow
      fun y cs t => post y cs t ∧ pre' cs t :=
  ⟨h.later, fun st hst s cs hat hpre => (h.yields st hst s cs hat hpre.1).mono
    fun y _ t _ ⟨hf, hat', hlength, hkeeps, hy⟩ =>
      ⟨hf, hat', hlength, hkeeps, hy, hs cs y.2 s t hkeeps hlength hpre.2⟩⟩

theorem Does.onward (hbc : Later basis b c) (hpos : c.session.position = b.session.position) :
    Does basis a c touched code pre scan flow post :=
  ⟨h.later.trans hbc, fun st hst s cs hat hs => hpos ▸ h.yields st (hst.of hbc) s cs hat hs⟩

end

theorem Does.widen (h : Does basis a b [] code pre scan flow post) :
    Does basis a b touched code pre scan flow post :=
  ⟨h.later, fun st hst s cs hat hs => (h.yields st hst s cs hat hs).mono
    fun _ _ _ _ ⟨hf, hat', hle, hkeeps, hy⟩ => ⟨hf, hat', hle, hkeeps.mono (by simp), hy⟩⟩

theorem Does.earlier (h : Does basis b c touched code pre scan flow post) (hab : Later basis a b)
    (hpos : b.session.position = a.session.position) :
    Does basis a c touched code pre scan flow post :=
  ⟨hab.trans h.later, fun st hst s cs hat hs => (h.yields st hst s cs (hpos ▸ hat) hs).mono
    fun _ _ _ _ ⟨hf, hat', hle, hkeeps, hy⟩ => ⟨hf, hat', hle, hkeeps.of_later hab, hy⟩⟩

theorem Does.keep (h : Does basis a b [] code (fun _ _ => True) scan flow post) (hs : Steady a [] pre) :
    Does basis a b [] code pre scan flow fun y cs t => post y cs t ∧ pre cs t :=
  (h.frame hs).under fun _ _ hpre => ⟨trivial, hpre⟩

section

variable [Inhabited κ] {scan' : κ → (String → Scan Json) → Scan μ} {flow' : μ → Flow}
  {post' : μ → List Char → State → Prop}

theorem Does.seq (h : Acts basis a b touched' code pre scan post) (ht : touched' ⊆ touched)
    (hk : ∀ y, Does basis b c touched code' (post y) (scan' y) flow' post') :
    Does basis a c touched (code ++ code') pre (fun call => scan call >>= fun y => scan' y call) flow'
      post' := by
  have hbc := (hk default).later
  refine ⟨h.later.trans hbc, fun st hst s cs hat hs => ?_⟩
  refine (h.yields st (hst.of hbc) s cs hat hs).append fun y f t _ ⟨hf, hat', hle, hkeeps, hy⟩ => ?_
  refine .inl ⟨hf, ((hk y.1).yields st hst t y.2 hat' hy).mono
    fun z f u _ ⟨hf, hat'', hle', hkeeps', hz⟩ => ⟨hf, hat'', Nat.le_trans hle' hle, ?_, hz⟩⟩
  exact (hkeeps.mono ht).trans (hkeeps'.of_later h.later)

theorem Does.then (h : Acts basis a b [] code (fun _ _ => True) scan post) (hs : Steady a [] pre)
    (hk : ∀ y, Does basis b c touched code' (fun cs t => post y cs t ∧ pre cs t) (scan' y) flow' post') :
    Does basis a c touched (code ++ code') pre (fun call => scan call >>= fun y => scan' y call) flow'
      post' :=
  Does.seq (h.keep hs) (by simp) hk

theorem Does.over (h : Acts basis a b [] code (fun _ _ => True) scan post) (hs : Steady a [] pre)
    (hk : ∀ y, Does basis b c touched code' pre (scan' y) flow' post') :
    Does basis a c touched (code ++ code') pre (fun call => scan call >>= fun y => scan' y call) flow'
      post' :=
  h.then hs fun y => (hk y).under fun _ _ hpre => hpre.2

end

theorem Does.followed [Inhabited κ] (h : Acts basis a b [] code pre scan post)
    (hk : ∀ y, Does basis b c touched code' (post y) (fun _ => pure y) flow post') :
    Does basis a c touched (code ++ code') pre scan flow post' := by
  simpa using Does.seq h (by simp) hk

theorem Does.prepare
    (h : Acts basis a b [] code (fun _ _ => True) (fun _ => pure ()) fun _ _ _ => True)
    (hs : Steady a [] pre) (hk : Does basis b c touched code' pre scan flow post) :
    Does basis a c touched (code ++ code') pre scan flow post :=
  h.over hs fun _ => hk

theorem does_nil (hflow : flow y = .normal) (h : ∀ cs s, pre cs s → post y cs s) :
    Does basis a a touched [] pre (fun _ => pure y) flow post :=
  ⟨.refl a, fun _ _ s cs hat hs =>
    yields_nil ⟨hflow.symm, hat, Nat.le_refl _, .refl _ _ _, h cs s hs⟩⟩

theorem does_leave (hflow : flow y = .leave) (h : ∀ cs s, pre cs s → post y cs s) :
    Does basis a a touched [.leave] pre (fun _ => pure y) flow post :=
  ⟨.refl a, fun _ _ s cs hat hs =>
    yields_leave ⟨hflow.symm, hat, Nat.le_refl _, .refl _ _ _, h cs s hs⟩⟩

theorem does_declare (hp : Placed a) (hn : Fresh a n b) (ht : touched' ⊆ n :: touched)
    (hv : ∀ st, Serves st a → ∀ cs s, At st.text a.session.position cs s → pre cs s →
      ∃ v, Gives st.watch e v s ∧ pre' cs (s.put n v))
    (h : Does basis b c touched' code pre' scan flow post) :
    Does basis a c touched (.declare n (some e) constant :: code) pre scan flow post := by
  have hab : Later basis a b := later_fresh hn
  refine ⟨hab.trans h.later, fun st hst s cs hat hs => ?_⟩
  obtain ⟨v, hv, hs'⟩ := hv st ((hst.of h.later).of hab) cs s hat hs
  refine (sets_declare hv).yields ((h.yields st hst _ cs (hat.put_fresh hp hn v) hs').mono
    fun y f t _ ⟨hf, hat', hle, hkeeps, hy⟩ => ⟨hf, hat', hle, fun m hm hmt => ?_, hy⟩)
  have hne : m ≠ n := hm.ne_fresh hn
  have hmt' : m ∉ touched' := fun hm' => hmt (by simpa [hne] using ht hm')
  rw [hkeeps m (hab.settled hm) hmt', State.get?_put_of_ne hne]

theorem does_let {v : Json} (hp : Placed a) (hn : Fresh a n b) (ht : touched' ⊆ n :: touched)
    (hs : Steady a [] pre) (hv : ∀ w : Watch, ∀ cs s, pre cs s → Gives w e v s)
    (h : Does basis b c touched' code (fun cs s => s.get? n = some v ∧ pre cs s) scan flow post) :
    Does basis a c touched (.declare n (some e) constant :: code) pre scan flow post :=
  does_declare hp hn ht (fun st _ cs s _ hpre => ⟨v, hv st.watch cs s hpre, State.get?_put_self _ _ _,
    hs cs cs s _ (keeps_put_fresh hn s v) (Nat.le_refl _) hpre⟩) h

theorem does_mark (hp : Placed a) (hn : Fresh a n b) (hpos : a.session.position = .moving pos)
    (ht : touched' ⊆ n :: touched) (hs : Steady a [] pre)
    (h : Does basis b c touched' code (fun cs s => Marked n s ∧ pre cs s) scan flow post) :
    Does basis a c touched (.declare n (some (.var pos)) constant :: code) pre scan flow post := by
  refine does_declare hp hn ht (fun st _ cs s hat hpre => ?_) h
  obtain ⟨v, hv, hmarked⟩ := At.marked_put (hpos ▸ hat) (fresh_ne_textName hp hn)
  exact ⟨v, hv, hmarked, hs cs cs s _ (keeps_put_fresh hn s v) (Nat.le_refl _) hpre⟩

theorem does_set {set : Stmt} (hn : Settled a n) (htext : n ≠ textName) (ht : n ∈ touched)
    (hv : ∀ st, Serves st a → ∀ cs s, At st.text a.session.position cs s → pre cs s →
      ∃ v, Sets st.watch set n v s ∧ pre' cs (s.put n v))
    (h : Does basis a b touched code pre' scan flow post) :
    Does basis a b touched (set :: code) pre scan flow post := by
  refine ⟨h.later, fun st hst s cs hat hs => ?_⟩
  obtain ⟨v, hv, hs'⟩ := hv st (hst.of h.later) cs s hat hs
  refine hv.yields ((h.yields st hst _ cs (hat.put_settled hn htext v) hs').mono
    fun y f t _ ⟨hf, hat', hle, hkeeps, hy⟩ => ⟨hf, hat', hle, ?_, hy⟩)
  exact ((Keeps.refl a touched s).put (fun _ => ht) v).trans hkeeps

/-! ### Tests -/

def Tells (a : Assembly Progress) (pre : List Char → State → Prop) (c : Expr) (q : Bool) : Prop :=
  ∀ st, Serves st a → ∀ cs s, At st.text a.session.position cs s → pre cs s → Truth st.watch c q s

def Blames (a : Assembly Progress) (pre : List Char → State → Prop) (place : Expr) : Prop :=
  ∀ text cs s, At text a.session.position cs s → pre cs s → Marks text s place

theorem blames_var (h : ∀ cs s, pre cs s → Marked n s) : Blames a pre (.var n) :=
  fun text cs s hat hs => h cs s hs text hat.text_eq

theorem blames_here : Blames a pre a.session.position.code := fun _ _ _ hat _ => hat.marks

theorem Tells.negate {c : Expr} (h : Tells a pre c q) : Tells a pre c.negate (!q) :=
  fun st hst cs s hat hs => (h st hst cs s hat hs).negate

def complaintCode (message : String) (place : Expr) : Expr :=
  .object [("message", .str message), ("position", place)]

theorem yields_complain {β : Type} {rest : List Stmt} {post : β → Flow → State → Prop}
    (h : Marks st.text s place) :
    Yields st.watch (.throw (complaintCode message place) :: rest) s none post := by
  obtain ⟨n, hn, hplace⟩ := h.gives
  have hmembers : List.Forall₂ (fun m v => m.1 = v.1 ∧ Gives st.watch m.2 v.2 s)
      [("message", .str message), ("position", place)]
      [("message", .string message), ("position", Json.ofNat n)] :=
    .cons ⟨rfl, gives_lit _⟩ (.cons ⟨rfl, hplace⟩ .nil)
  exact yields_throw (gives_object hmembers) (.inl ⟨_, rfl, message, n, hn, rfl⟩)

theorem does_fails (hab : Later basis a b) (hp : Blames a pre place) :
    Does basis a b touched (.throw (complaintCode message place) :: code) pre (fun _ => Scan.fails)
      flow post :=
  ⟨hab, fun _ _ s cs hat hs => yields_complain (hp _ cs s hat hs)⟩

theorem does_check {c : Expr} (hc : Tells a pre c !q) (hp : Blames a pre place)
    (hab : Later basis a b) (h : q = true → Does basis a b touched code pre scan flow post) :
    Does basis a b touched (.branch c [.throw (complaintCode message place)] [] :: code) pre
      (fun call => Scan.check q >>= fun _ => scan call) flow post := by
  refine ⟨hab, fun st hst s cs hat hs => yields_branch_cons (hc st (hst.of hab) cs s hat hs) ?_⟩
  cases q with
  | false => exact yields_complain (hp _ cs s hat hs)
  | true => exact (h rfl).yields st hst s cs hat hs

theorem does_isAt {k : Bool → (String → Scan Json) → Scan κ} (hab : Later basis a b)
    (h : ∀ q, Does basis a b touched code
      (fun cs s => pre cs s ∧ token.toList.isPrefixOf cs = q) (k q) flow post) :
    Does basis a b touched code pre (fun call => Scan.isAt token >>= fun q => k q call) flow post :=
  ⟨hab, fun st hst s cs hat hs => (h _).yields st hst s cs hat ⟨hs, rfl⟩⟩

section

variable {scan' : (String → Scan Json) → Scan κ} {e : Expr}
  (hpos : a.session.position = .moving pos) (hab : Later basis a b) (hbd : Later basis b d)

include hpos hab hbd

theorem does_branch (hc : Tells a pre e q)
    (hyes : q = true → Does basis a b touched yes pre scan flow post)
    (hno : q = false → Does basis b d touched no pre scan flow post) :
    Does basis a d touched [.branch e yes no] pre scan flow post := by
  have hposb := hab.position_eq hpos
  have hposd := hbd.position_eq hposb
  refine ⟨hab.trans hbd, fun st hst s cs hat hs => ?_⟩
  refine yields_branch_cons (hc st (hst.of (hab.trans hbd)) cs s hat hs) ?_
  rw [List.append_nil]
  cases q with
  | true => exact ((hyes rfl).onward hbd (hposd.trans hposb.symm)).yields st hst s cs hat hs
  | false => exact ((hno rfl).earlier hab (hposb.trans hpos.symm)).yields st hst s cs hat hs

theorem does_ite (hc : Tells a pre e q)
    (hyes : q = true → Does basis a b touched yes pre scan flow post)
    (hno : q = false → Does basis b d touched no pre scan' flow post) :
    Does basis a d touched [.branch e yes no] pre
      (fun call => if q then scan call else scan' call) flow post :=
  does_branch hpos hab hbd hc (fun hq => by subst hq; exact hyes rfl)
    fun hq => by subst hq; exact hno rfl

theorem does_ite_not (hc : Tells a pre e !q)
    (hno : q = false → Does basis a b touched no pre scan' flow post)
    (hyes : q = true → Does basis b d touched yes pre scan flow post) :
    Does basis a d touched [.branch e no yes] pre
      (fun call => if q then scan call else scan' call) flow post := by
  refine does_branch hpos hab hbd hc (fun hq => ?_) (fun hq => ?_)
  · obtain rfl : q = false := by simpa using hq
    exact hno rfl
  · obtain rfl : q = true := by simpa using hq
    exact hyes rfl

theorem does_leaving (hc : Tells a pre e q)
    (hyes : q = true → Does basis a b touched yes pre scan flow fun y cs t =>
      flow y = .leave ∧ post y cs t)
    (hno : q = false → Does basis b d touched code pre scan flow post) :
    Does basis a d touched (.branch e yes [] :: code) pre scan flow post := by
  have hposb := hab.position_eq hpos
  have hposd := hbd.position_eq hposb
  refine ⟨hab.trans hbd, fun st hst s cs hat hs => ?_⟩
  refine yields_branch_cons (hc st (hst.of (hab.trans hbd)) cs s hat hs) ?_
  cases q with
  | true =>
    rw [← Option.bind_fun_some (scan st.call cs)]
    exact (((hyes rfl).onward hbd (hposd.trans hposb.symm)).yields st hst s cs hat hs).append
      fun y f t _ ⟨hf, hat', hle, hkeeps, hleave, hy⟩ =>
        .inr ⟨by simp [hf, hleave], y, rfl, hf, hat', hle, hkeeps, hy⟩
  | false => exact ((hno rfl).earlier hab (hposb.trans hpos.symm)).yields st hst s cs hat hs

end

/-! ### Loops -/

/-- A loop does as the repetition of what its rounds do. A round that goes on has read something. -/
theorem acts_repeated {body : List Stmt} {step : (String → Scan Json) → σ → Scan (σ × Bool)}
    (hpos : a.session.position = .moving pos) (hab : Later basis a b)
    (hbody : ∀ x k, Does basis a b touched body (fun cs s => inv x s ∧ cs.length ≤ k)
      (fun call => step call x) (fun z => flowOf z.2)
      fun z cs t => inv z.1 t ∧ (z.2 = true → cs.length < k)) (x : σ) :
    Acts basis a b touched [.loop body] (fun _ => inv x)
      (fun call => Scan.repeated (step call) x) fun y _ => inv y := by
  have hposb := hab.position_eq hpos
  refine ⟨hab, fun st hst s cs hat hx => ?_⟩
  have hlength : cs.length < st.env.rounds := by
    obtain ⟨before, hplace, -⟩ := hat.place
    have hle := length_toList_le st.text
    have hsmall := hst.small
    have hlimit : recordLimit < roundLimit := by decide
    rw [hplace, List.length_append] at hle
    rw [hst.rounds]
    omega
  have hloop : Runs st.watch [.loop body] s (Scan.repeated (step st.call) x cs) fun y t =>
      At st.text (.moving pos) y.2 t ∧ y.2.length ≤ cs.length ∧ Keeps a touched s t ∧ inv y.1 t := by
    unfold Scan.repeated
    rw [← hst.rounds]
    refine runs_loop (fun y : σ × List Char => y.2.length) (fun y t ⟨hat, hle, hk, hy⟩ => ?_)
      ⟨hpos ▸ hat, Nat.le_refl _, .refl _ _ _, hx⟩ hlength
    have hround := (hbody y.1 y.2.length).yields st hst t y.2 (hpos ▸ hat) ⟨hy, Nat.le_refl _⟩
    rw [Option.map_eq_bind]
    refine hround.conclude ?_
    rintro z f u - ⟨hf, hat', hle', hk', hz, hless⟩
    exact ⟨_, rfl, hf, ⟨hposb ▸ hat', Nat.le_trans hle' hle, hk.trans hk', hz⟩, hless⟩
  rwa [hposb]

/-! ## The position -/

theorem emits_promote (ha : Ready basis rounds a) :
    Emits promote a fun n b code => b.session.position = .moving n ∧
      Acts basis a b [] code (fun _ _ => True) (fun _ => pure ()) fun _ _ _ => True := by
  refine .bind (emits_session ?_)
  cases hp : a.session.position with
  | moving n => exact emits_pure ⟨hp, does_nil rfl fun _ _ _ => trivial⟩
  | known k =>
    refine .bind (emits_declare fun n b hn => .bind (emits_modifySession (emits_pure ?_)))
    have hne := fresh_ne_textName ha.placed hn
    refine ⟨rfl, ⟨hn.names_le, hn.library_eq ▸ .refl _, ?_, ?_, ?_, ?_⟩, ?_⟩
    · rw [hp]
      exact hn.not_old
    · intro _ m hm
      cases hm
      exact ⟨hn.old, hne⟩
    · exact fun _ _ hf => hn.session_eq ▸ hf
    · exact fun _ _ hf => .inl (hn.session_eq ▸ hf)
    · intro st _ s cs hat _
      obtain ⟨before, hplace, hbehind⟩ := hat.place
      rw [hp] at hbehind
      obtain rfl : k = byteLength before := hbehind
      exact (sets_declare (gives_lit _)).yields (yields_nil
        ⟨rfl, hat.put_position hne hplace, Nat.le_refl _, keeps_put_fresh hn s _, trivial⟩)

theorem emits_advance (ha : Ready basis rounds a) (token : String) :
    Emits (advance token.utf8ByteSize) a fun _ b code =>
      Acts basis a b [] code (fun cs _ => token.toList <+: cs)
        (fun _ => Scan.advance token) fun _ _ _ => True := by
  have hmove : ∀ {text : String} {before cs : List Char}, text.toList = before ++ cs →
      token.toList <+: cs → text.toList = (before ++ token.toList) ++ cs.drop token.length := by
    rintro text before _ hplace ⟨tail, rfl⟩
    rw [hplace, ← String.length_toList]
    simp
  refine .bind (emits_session ?_)
  cases hp : a.session.position with
  | known k =>
    refine emits_modifySession ⟨⟨le_rfl, .refl _, ?_, ?_, fun _ _ h => h,
      fun _ _ h => .inl h⟩, ?_⟩
    · rw [hp]
      trivial
    · exact fun _ _ hm => by cases hm
    · intro st _ s cs hat hpre
      obtain ⟨before, hplace, hbehind⟩ := hat.place
      rw [hp] at hbehind
      obtain rfl : k = byteLength before := hbehind
      refine yields_nil ⟨rfl, ⟨hat.errors_eq, hat.text_eq, _, hmove hplace hpre, ?_⟩,
        by simp, .refl _ _ _, trivial⟩
      show _ + _ = _
      rw [byteLength_append, byteLength_toList]
  | moving n =>
    refine emits_assign ⟨.refl a, ?_⟩
    intro st hst s cs hat hpre
    obtain ⟨before, hplace, hbehind⟩ := hat.place
    have hnext := hmove hplace hpre
    have hsize : byteLength before + token.utf8ByteSize ≤ recordLimit := by
      have hle := Primitive.byteLength_add hnext
      have hsmall := hst.small
      rw [byteLength_append, byteLength_toList] at hle
      omega
    rw [hp] at hat hbehind
    have hadd : Gives st.watch (.plus (.var n) (.nat token.utf8ByteSize))
        (Json.ofNat (byteLength (before ++ token.toList))) s := by
      rw [byteLength_append, byteLength_toList]
      exact gives_binary (gives_var hbehind) (gives_lit _) (binary_add_ofNat hsize)
    refine (sets_assign hadd).yields (yields_nil ⟨rfl, ?_, by simp, keeps_put_position hp s _, trivial⟩)
    rw [hp]
    exact hat.put_position (ha.placed n hp).2 hnext

/-! ## Tokens -/

def atCode (token : String) (p : Position) : Expr :=
  .equals (.slice (.var textName) p.code token.utf8ByteSize) (.str token)

theorem emits_isAt {Q : Expr → Post Progress}
    (h : Q (atCode token a.session.position) a []) : Emits (isAt token) a Q :=
  .bind (.bind (emits_session (emits_pure (emits_pure h))))

theorem tells_atCode (hp : a.session.position = p) (htoken : token ≠ "")
    (hq : ∀ cs s, pre cs s → token.toList.isPrefixOf cs = q) : Tells a pre (atCode token p) q := by
  intro st hst cs s hat hs
  rw [hp] at hat
  obtain ⟨before, hplace, hbehind⟩ := hat.place
  have hindex : asIndex (Json.ofNat (byteLength before)) = .ok _ :=
    asIndex_ofNat (by have := Primitive.byteLength_add hplace; have := hst.small; omega)
  have htext : Gives st.watch _ _ s := gives_var hat.text_eq
  refine ⟨_, gives_equals (gives_slice htext hbehind.gives hindex (hat.admits rfl))
    (gives_lit _), ?_⟩
  have hiff := slice_eq_iff hplace htoken
  rw [← hq cs s hs, Bool.eq_iff_iff, List.isPrefixOf_iff_prefix, ← hiff]
  simp [truthy, strictEq]

theorem emits_failAt (h : Q () a [.throw (complaintCode message place)]) :
    Emits (failAt message place) a Q :=
  emits_emit h

theorem emits_failHere (h : Q () a [.throw (complaintCode message a.session.position.code)]) :
    Emits (failHere message) a Q :=
  .bind (.bind (emits_session (emits_pure (emits_failAt h))))

/-! ## Reading -/

theorem later_holds {routine : Primitive} (h : Holds a routine n b) : Later basis a b where
  names_le := h.names_eq ▸ le_rfl
  grows := h.grows
  follows := h.session_eq ▸ .refl _ _
  placed := fun hp => by simpa only [Placed, h.names_eq, h.session_eq] using hp
  defined := fun _ _ hf => h.session_eq ▸ hf
  finished := fun _ _ hf => .inl (h.session_eq ▸ hf)

theorem Serves.routine {routine : Primitive} (hst : Serves st b)
    (h : Holds a routine n b) : st.watch.Routine n routine := by
  obtain ⟨k, rfl, hheld⟩ := h.held
  exact hst.routines routine k hheld

theorem Scan.length_behind (ws : Bool) (cs : List Char) : (Scan.behind ws cs).length ≤ cs.length := by
  unfold Scan.behind
  split
  · exact (List.dropWhile_suffix _).length_le
  · exact Nat.le_refl _

theorem At.gives_args (hat : At st.text (.moving pos) cs s)
    (hbehind : (Position.moving pos).IsBehind before s) :
    List.Forall₂ (fun e v => Gives st.watch e v s) [.var textName, .var pos]
      [.string st.text, Json.ofNat (byteLength before)] :=
  .cons (gives_var hat.text_eq) (.cons (gives_var hbehind) .nil)

section

variable (ha : Ready basis rounds a)

include ha

theorem emits_skipBlanks :
    Emits (skipBlanks basis.options) a fun _ b code =>
      Acts basis a b [] code (fun _ _ => True)
        (fun _ => Scan.skip basis.ws) fun _ _ _ => True := by
  unfold skipBlanks
  by_cases hws : basis.ws = true
  · rw [if_pos hws]
    refine .bind ((emits_promote ha).mono fun pos b code₁ ⟨hpos, hb⟩ => ?_)
    have hready := ha.later hb.later
    refine .bind (emits_primitive hready.tidy fun skip c hc => emits_assign ?_)
    refine hb.prepare steady_true ⟨later_holds hc, fun st hst s cs hat _ => ?_⟩
    rw [hpos] at hat
    obtain ⟨before, hplace, hbehind⟩ := hat.place
    obtain ⟨after, hafter, hcall⟩ := Primitive.call_skipWhitespace hplace
    refine (sets_assign (gives_routine (hst.routine hc) (hat.gives_args hbehind) hcall
      (hat.admits rfl))).yields (yields_nil ⟨rfl, ?_, Scan.length_behind _ _, ?_, trivial⟩)
    · rw [hc.session_eq, hpos, Scan.behind, if_pos hws]
      exact hat.put_position (hready.placed pos hpos).2 hafter
    · exact keeps_put_position hpos s _
  · rw [if_neg hws]
    refine emits_pure ⟨.refl a, fun st _ s cs hat _ => ?_⟩
    refine yields_nil ⟨rfl, ?_, Scan.length_behind _ _, .refl _ _ _, trivial⟩
    rwa [Scan.behind, if_neg hws]

theorem emits_expect (htoken : token ≠ "") :
    Emits (expect basis.options token) a fun _ b code =>
      Acts basis a b [] code (fun _ _ => True)
        (fun _ => Scan.token basis.ws token) fun _ _ _ => True := by
  refine .bind ((emits_skipBlanks ha).mono fun _ b code₁ hb => ?_)
  refine .bind (emits_isAt (.bind (emits_ifThen (emits_failHere ?_))))
  refine (emits_advance (ha.later hb.later) token).mono fun _ c code₂ hc => ?_
  refine hb.over steady_true fun _ => does_isAt hc.later fun q => ?_
  refine does_check (tells_atCode rfl htoken fun _ _ h => h.2).negate blames_here hc.later fun hq => ?_
  exact hc.under fun cs s h => List.isPrefixOf_iff_prefix.1 (h.2.trans hq)

theorem emits_call {α : Type} (scan : (String → Scan Json) → Scan Json) {x : Name → Emit α}
    {Q : α → Post Progress} (hpos : a.session.position = .moving pos)
    (hf : ∀ st, Serves st a → Returns st.text (st.watch.call f) (scan st.call))
    (hx : ∀ value b code, Settled b value →
      Acts basis a b [] code (fun _ _ => True) scan (fun v _ t => t.get? value = some v) →
      Emits (x value) b fun r c code' => Q r c (code ++ code')) : Emits (do
      let result ← Gen.constant resultStem (.callName f [.var textName, .var pos])
      assign pos (.index (.var result) (.nat 1))
      let value ← Gen.constant valueStem (.index (.var result) (.nat 0))
      x value) a Q := by
  refine .bind (emits_constant fun r b hr => .bind (emits_assign ?_))
  refine .bind (emits_constant fun value c hvalue => ?_)
  have hab : Later basis a b := later_fresh hr
  have hbc : Later basis b c := later_fresh hvalue
  have hb := hab.placed ha.placed
  refine hx value c [.declare r (some _) true,
    .assign pos _, .declare value (some _) true]
    (settled_fresh hb hvalue) ⟨hab.trans hbc, fun st hst s cs hat _ => ?_⟩
  rw [hpos] at hat
  obtain ⟨before, hplace, hbehind⟩ := hat.place
  have hargs := hat.gives_args hbehind
  have hreturns := hf st ((hst.of hbc).of hab) before cs s hat.errors_eq hplace
  have hlooks := admitted_call hargs (hat.admits rfl) hreturns.1
  replace hreturns := hreturns.2
  cases hscan : scan st.call cs with
  | none =>
    rw [hscan] at hreturns
    obtain ⟨err, t, hcall, hstops⟩ := hreturns
    exact yields_declare_none ((ran_eval_call hargs).trans hcall) hstops hlooks
  | some y =>
    obtain ⟨v, rest⟩ := y
    rw [hscan] at hreturns
    obtain ⟨_, ⟨after, hafter, hle, rfl⟩, hcall⟩ := hreturns
    have hne : r ≠ pos := fun he => hr.not_old (he ▸ (ha.placed pos hpos).1)
    have hresult : ∀ u w, ((s.put r u).put pos w).get? r = some u := fun u w => by
      rw [State.get?_put_of_ne hne, State.get?_put_self]
    refine (sets_declare ⟨(ran_eval_call hargs).trans hcall, hlooks⟩).yields ?_
    refine (sets_assign (gives_index (gives_var (State.get?_put_self _ _ _)) (gives_lit _))).yields ?_
    refine (sets_declare (gives_index (gives_var (hresult _ _)) (gives_lit _))).yields
      (yields_nil ⟨rfl, ?_, hle, ?_, State.get?_put_self _ _ _⟩)
    · have hat₁ := ((hpos ▸ hat).put_fresh ha.placed hr
        (.array [v, Json.ofNat (byteLength after)])).put_position (ha.placed pos hpos).2 hafter
      exact At.put_fresh ((hab.position_eq hpos).symm ▸ hat₁) hb hvalue v
    · refine (((Keeps.refl a [] s).put ?_ _).put ?_ _).put ?_ _
      · exact fun h => absurd rfl (h.ne_fresh hr)
      · exact fun h => absurd h (not_settled_position hpos)
      · exact fun h => absurd h (not_settled_fresh hab hvalue)

def IsReader (routine : Primitive) : Prop :=
  routine = .parseString ∨ routine = .parseNumber ∨ routine = .parseValue

/-- A value is read by a routine; one variable holds where it starts, and another the value. -/
theorem emits_scalar {routine : Primitive} (hr : IsReader routine) :
    Emits (scalar basis.options routine) a fun r b code => (Settled b r.1 ∧ Settled b r.2) ∧
      Acts basis a b [] code (fun _ _ => True) (fun _ => Scan.scalar basis.ws routine)
        fun v _ t => t.get? r.2 = some v ∧ Marked r.1 t := by
  refine .bind ((emits_skipBlanks ha).mono fun _ b code₁ hb => ?_)
  have hb' := ha.later hb.later
  refine .bind ((emits_promote hb').mono fun pos c code₂ ⟨hpos, hc⟩ => ?_)
  have hc' := hb'.later hc.later
  refine .bind (emits_constant fun start d hd => ?_)
  obtain ⟨hcd, hd', hsettled, -⟩ := hc'.fresh hd
  refine .bind (emits_primitive hd'.tidy fun read e he => ?_)
  have hde : Later basis d e := later_holds he
  have hstart := hde.settled hsettled
  refine emits_call (hd'.later hde) (fun _ => Scan.value routine)
    (hde.position_eq (hcd.position_eq hpos)) (fun st hst => returns_routine (hst.routine he) hr)
    fun value f code₃ hvalue hf => ?_
  refine emits_pure ⟨⟨hf.later.settled hstart, hvalue⟩, ?_⟩
  rw [List.append_nil]
  refine hb.over steady_true fun _ => hc.prepare steady_true ?_
  refine does_mark hc'.placed hd hpos (List.nil_subset _) steady_true ?_
  exact ((hf.keep (steady_marked (hd'.later hde).placed hstart (by simp) (by simp))).under fun _ _ h => h.1).earlier hde (by rw [he.session_eq])

theorem emits_text :
    Emits (scalar basis.options .parseString) a fun r b code => (Settled b r.1 ∧ Settled b r.2) ∧
      Acts basis a b [] code (fun _ _ => True) (fun _ => Scan.text basis.ws)
        fun text _ t => t.get? r.2 = some (.string text) ∧ Marked r.1 t := by
  refine (emits_scalar ha (.inl rfl)).mono fun r b code ⟨hr, hb⟩ => ⟨hr, hb.conclude ?_⟩
  rintro call cs s v rest t - hy hv
  obtain ⟨-, text, -, rfl, -⟩ := Scan.letters_of_value hy
  exact ⟨String.ofList text, rfl, rfl, hv⟩

end

/-! ## Loops -/

theorem acts_comma {inv : State → Prop} {k : Nat} {y : σ} (hs : Steady a [] fun _ => inv)
    (h : Acts basis a b [] code (fun cs _ => ",".toList <+: cs) (fun _ => Scan.advance ",")
      fun _ _ _ => True) (hq : q = true) : Does basis a b touched code
      (fun cs s => (inv s ∧ cs.length ≤ k) ∧ ",".toList.isPrefixOf cs = q)
      (fun _ => do Scan.advance ","; return (y, true)) (fun z => flowOf z.2)
      fun z cs t => z.1 = y ∧ inv t ∧ (z.2 = true → cs.length < k) := by
  have hcomma : ∀ cs : List Char, ",".toList.isPrefixOf cs = q → ",".toList <+: cs :=
    fun cs h => List.isPrefixOf_iff_prefix.1 (h.trans hq)
  refine (((h.frame hs).under fun cs s h => ⟨hcomma cs h.2, h.1.1⟩).conclude ?_).widen
  rintro call cs s _ rest t hpre ⟨⟩ ⟨-, hinv⟩
  obtain ⟨tail, rfl⟩ := hcomma cs hpre.2
  refine ⟨(y, true), rfl, rfl, rfl, hinv, fun _ => ?_⟩
  exact hpre.1.2

/-- Code changes what is gathered so far as a scan does; `inv` says where it is kept. -/
def Gathers (basis : Basis) (inv : σ → State → Prop) (touched : List Name) (member : Emit Unit)
    (a : Assembly Progress) (scan : (String → Scan Json) → σ → Scan σ) : Prop :=
  Emits member a fun _ b code => ∀ x,
    Acts basis a b touched code (fun _ => inv x) (fun call => scan call x) fun y _ => inv y

section

variable [Inhabited σ] {scan : (String → Scan Json) → σ → Scan σ} (ha : Ready basis rounds a)
  (hpos : a.session.position = .moving pos) (hinv : ∀ x, Steady a [] fun _ => inv x)

include ha hpos hinv

theorem emits_separated (hmember : Gathers basis inv touched member a scan) :
    Gathers basis inv touched (separated basis.options member) a
      fun call => Scan.separated basis.ws (scan call) := by
  refine emits_loop (.bind (hmember.mono fun _ b code₁ hb => ?_))
  have hab := (hb default).later
  have hb' := ha.later hab
  refine .bind ((emits_skipBlanks hb').mono fun _ c code₂ hc => ?_)
  have hac := hab.trans hc.later
  refine .bind (emits_isAt (emits_ifElse ?_))
  refine (emits_advance (hb'.later hc.later) ",").mono fun _ d code₃ hd => emits_emit ?_
  refine acts_repeated hpos (hac.trans hd.later) fun x k => ?_
  refine ((hb x).frame (steady_length k)).seq (List.Subset.refl _) fun y => ?_
  have hkeep : ∀ {e}, Later basis a e → Steady e [] fun cs s => inv y s ∧ cs.length ≤ k :=
    fun hae => ((hinv y).and (steady_length k)).later hae
  refine hc.over (hkeep hab) fun _ => does_isAt hd.later fun q => ?_
  refine does_ite (hac.position_eq hpos) hd.later (.refl d)
    (tells_atCode rfl (by decide) fun _ _ h => h.2) (fun hq => ?_) (fun _ => ?_)
  · refine (acts_comma ((hinv y).later hac) hd hq).mono (fun _ _ h => h) ?_
    rintro z cs t ⟨rfl, h⟩
    exact h
  · exact does_leave rfl fun _ _ h => ⟨h.1.1, nofun⟩

theorem emits_listed {closing : String} (hclosing : closing ≠ "")
    (hmember : ∀ b, Later basis a b → Gathers basis inv touched member b scan) :
    Gathers basis inv touched (listed basis.options closing member) a
      fun call => Scan.listed basis.ws closing (scan call) := by
  refine .bind ((emits_skipBlanks ha).mono fun _ b code₁ hb => ?_)
  have hposb := hb.later.position_eq hpos
  refine .bind (emits_isAt (emits_ifThen ?_))
  refine (emits_separated (ha.later hb.later) hposb (fun x => (hinv x).later hb.later)
    (hmember b hb.later)).mono fun _ c code₂ hc x => ?_
  have hbc := (hc default).later
  refine hb.over (hinv x) fun _ => does_isAt hbc fun q => ?_
  refine does_ite_not hposb hbc (.refl c) (tells_atCode rfl hclosing fun _ _ h => h.2).negate
    (fun _ => ?_) fun _ => does_nil rfl fun _ _ h => h.1
  exact (hc x).under fun _ _ h => h.1

end

end SchemaCompiler.TypeDefinition.Parser
