import SchemaCompiler.Proofs.Plan.Values
import SchemaCompiler.Proofs.Planning.Makes

/-!
# Plans in their places

Where a keyword occurs, some variables can be read: the data and the data above it, the path, and
all that the program holds. The plan of a keyword has to fit every context that offers these and in
which nothing is called by a name that is still to be given. `Suits` says this of a plan that was
made between two states of the program.
-/
namespace SchemaCompiler

variable {message : Expr}

/-! ## Expressions -/

namespace Expr

variable {R : Name → Prop} {b a : Expr} {n : Name} {items rest : List Expr}

@[simp] theorem within_lit (v : Json) : (lit v).Within R := trivial

@[simp] theorem within_str (s : String) : (str s).Within R := trivial

@[simp] theorem within_bool (b : Bool) : (bool b).Within R := trivial

@[simp] theorem within_nat (n : Nat) : (nat n).Within R := trivial

@[simp] theorem within_null : null.Within R := trivial

@[simp] theorem within_var : (var n).Within R ↔ R n := Iff.rfl

@[simp] theorem within_equals : (equals a b).Within R ↔ a.Within R ∧ b.Within R :=
  Iff.rfl

@[simp] theorem within_differs : (differs a b).Within R ↔ a.Within R ∧ b.Within R :=
  Iff.rfl

theorem within_callName (hn : n.Routine) (hr : R n) {args : List Expr}
    (h : ∀ e ∈ args, e.Within R) : (callName n args).Within R :=
  ⟨⟨n, rfl, hn, hr⟩, withinItems_iff.2 h⟩

theorem within_negate {e : Expr} (h : e.Within R) : e.negate.Within R := by
  unfold negate
  split
  · trivial
  · exact h
  · exact h
  · exact h
  · exact h

theorem within_plus (ha : a.Within R) (hb : b.Within R) : (a.plus b).Within R := by
  unfold plus
  split
  · trivial
  · exact ⟨ha.1, trivial⟩
  · exact ⟨ha, hb⟩

variable (h : ∀ e ∈ items, e.Within R)

include h

theorem within_left {k : Bool} {o : Option (List Expr)} (hl : Left k items o) :
    ∀ rest, o = some rest → ∀ e ∈ rest, e.Within R := by
  induction hl with
  | nil => simp
  | drop _ ih => exact ih (List.forall_mem_cons.1 h).2
  | stop => nofun
  | splice inner _ ih =>
    intro rest hrest
    obtain ⟨others, ho, rfl⟩ := Option.map_eq_some_iff.1 hrest
    obtain ⟨hinner, hothers⟩ := List.forall_mem_cons.1 h
    refine List.forall_mem_append.2 ⟨withinItems_iff.1 ?_, ih hothers others ho⟩
    cases k <;> exact hinner
  | keep e _ ih =>
    intro rest hrest
    obtain ⟨others, ho, rfl⟩ := Option.map_eq_some_iff.1 hrest
    obtain ⟨hfirst, hothers⟩ := List.forall_mem_cons.1 h
    exact List.forall_mem_cons.2 ⟨hfirst, ih hothers others ho⟩

theorem within_folded (k : Bool) : (folded k items).Within R := by
  obtain ⟨o, hl, heq⟩ := exists_left k items
  have hrest := within_left h hl
  rw [heq]
  unfold rejoined
  split
  · trivial
  · trivial
  · exact hrest _ rfl _ (by simp)
  · cases k <;> exact withinItems_iff.2 (hrest _ rfl)

theorem within_all : (all items).Within R := within_folded h true

theorem within_any : (any items).Within R := within_folded h false

end Expr

theorem Template.within_render {R : Name → Prop} (t : Template) {params : List (String × Expr)}
    (h : ∀ p ∈ params, p.2.Within R) : (t.render params).Within R := by
  have hpiece : ∀ part, (piece params part).Within R := by
    intro part
    cases part with
    | text text => trivial
    | param name =>
      simp only [piece]
      split
      · trivial
      · trivial
      · rename_i e _ hp
        exact h _ (Assoc.mem_of_get?_eq_some hp)
      · trivial
  have hfold : ∀ (parts : List Part) (e : Expr), e.Within R →
      (parts.foldl (fun message part => message.plus (piece params part)) e).Within R := by
    intro parts
    induction parts with
    | nil => exact fun e he => he
    | cons part parts ih => exact fun e he => ih _ (Expr.within_plus he (hpiece part))
  exact hfold t.parts _ trivial

/-! ## What can be read -/

/-- What can be read where a schema stands, names of a kind that are kept for the program among it. -/
structure Site.Seen (H R : Name → Prop) (site : Site) : Prop where
  reserved : ∀ n, n.Reserved → H n → R n
  data : R site.data
  levels : ∀ n ∈ site.levels, R n
  path : site.instancePath.Within R
  root : R site.rootData

theorem Site.Seen.mono {H R S : Name → Prop} {site : Site} (h : site.Seen H R)
    (hs : ∀ n, R n → S n) : site.Seen H S :=
  ⟨fun n hn hh => hs n (h.reserved n hn hh), hs _ h.data, fun n hn => hs n (h.levels n hn),
    h.path.mono hs, hs _ h.root⟩

section Records

variable {H R : Name → Prop} {site : Site} {o : Occurrence} {params : List (String × Expr)}

theorem Site.within_record (h : site.Seen H R) (keyword schemaPath : String)
    (hp : ∀ p ∈ params, p.2.Within R) (hm : message.Within R) :
    (site.record keyword schemaPath params message).Within R :=
  ⟨h.path, trivial, trivial, Expr.withinMembers_iff.2 hp, hm, trivial⟩

theorem Occurrence.within_record (h : o.site.Seen H R) (hp : ∀ p ∈ params, p.2.Within R)
    (hm : message.Within R) : (o.record params message).Within R :=
  Site.within_record h _ _ hp hm

theorem Occurrence.within_ownRecord (h : o.site.Seen H R) (hp : ∀ p ∈ params, p.2.Within R) :
    (o.ownRecord params).Within R := by
  refine within_record h hp ?_
  unfold message
  split
  · exact Template.within_render _ hp
  · trivial

end Records

/-! ## Contexts -/

/-- A context in which the plan of a schema may stand that is made between two states: it offers what
can be read there, the values that are held at the end among it, and has no name that is still to be
given at the start. -/
structure Context.Hosts (Γ : Context) (a c : Assembly Session) (site : Site) : Prop where
  seen : site.Seen c.Has Γ.reads
  old : ∀ n, Γ.reads n ∨ Γ.sets n ∨ Γ.marks n → a.names.Old n
  data : Γ.Holds site.data

/-- What the plan of a part of a keyword may rely on apart from its site: variables to read, to set,
or that hold a part of the data, and whether the data is known to be there. -/
structure Terms where
  reads : List Name
  sets : List Name
  parts : List Name
  firm : Bool

namespace Terms

def plain : Terms := ⟨[], [], [], false⟩

variable (τ : Terms)

def declare (names : List Name) : Terms := { τ with sets := τ.sets ++ names }

def frozen : Terms := { τ with reads := τ.reads ++ τ.sets, sets := [] }

def given (data : Name) (condition : Expr) : Terms :=
  { τ with firm := τ.firm || condition.firms.contains data }

/-- The terms of a round of a loop; where an error leaves the loop, its body sets nothing. -/
def inLoop (τ : Terms) (data var : Name) (along : Traversal) (breaks : Bool) : Terms where
  reads := var :: τ.reads ++ τ.sets
  sets := if breaks then [] else τ.sets
  parts := match along with
    | .keys (.var n) => if n = data then var :: τ.parts else τ.parts
    | _ => τ.parts
  firm := τ.firm || along.firms.contains data

/-- Terms that other terms grant. -/
structure Within (τ σ : Terms) : Prop where
  reads : ∀ n ∈ τ.reads, n ∈ σ.reads ∨ n ∈ σ.sets
  sets : ∀ n ∈ τ.sets, n ∈ σ.sets
  parts : ∀ n ∈ τ.parts, n ∈ σ.parts
  firm : τ.firm = true → σ.firm = true

theorem plain_within (σ : Terms) : plain.Within σ := ⟨nofun, nofun, nofun, nofun⟩

theorem within_declare (names : List Name) : τ.Within (τ.declare names) :=
  ⟨fun _ => .inl, fun _ hn => List.mem_append.2 (.inl hn), fun _ => id, id⟩

theorem within_given (data : Name) (condition : Expr) : τ.Within (τ.given data condition) :=
  ⟨fun _ => .inl, fun _ => id, fun _ => id, fun h => by simp [given, h]⟩

end Terms

/-- A context in which the plan of a part of a keyword may stand, on some terms. -/
structure Context.Offers (Γ : Context) (a c : Assembly Session) (o : Occurrence) (τ : Terms) :
    Prop where
  host : Γ.Hosts a c o.site
  code : ∀ e, o.dataCode = some e → e.Within Γ.reads
  reads : ∀ n ∈ τ.reads, Γ.reads n
  sets : ∀ n ∈ τ.sets, Γ.reads n ∧ Γ.sets n ∧ ¬ Γ.marks n
  parts : ∀ n ∈ τ.parts, Γ.Holds n
  firm : τ.firm = true → Γ.solid o.site.data

namespace Context

variable {Γ Δ : Context} {a b c d : Assembly Session} {site : Site} {o : Occurrence}

namespace Hosts

variable {n : Name}

theorem extend (h : Γ.Hosts a c site) (hr : ∀ n, Γ.reads n → Δ.reads n)
    (ho : ∀ n, Δ.reads n ∨ Δ.sets n ∨ Δ.marks n → b.names.Old n) (hs : ¬ Δ.sets site.data)
    (hb : ∀ n, Γ.below n → Δ.below n) : Δ.Hosts b c site :=
  ⟨h.seen.mono hr, ho, hr _ h.data.1, hs, h.data.2.2.imp id (hb _)⟩

theorem later (h : Γ.Hosts a c site) (hn : a.names ≤ b.names) : Γ.Hosts b c site :=
  h.extend (fun _ => id) (fun n hr => (h.old n hr).mono hn) h.data.2.1 fun _ => id

theorem before (h : Γ.Hosts a d site) (hg : Growth c d) : Γ.Hosts a c site :=
  ⟨⟨fun n hn hh => h.seen.reserved n hn (hg.has hh), h.seen.data, h.seen.levels, h.seen.path,
    h.seen.root⟩, h.old, h.data⟩

variable (h : Γ.Hosts a c site)

include h

theorem fresh (hn : NewName a b n) : Γ.Fresh n :=
  ⟨fun hr => hn.1 (h.old n (.inl hr)), fun hm => hn.1 (h.old n (.inr (.inr hm)))⟩

theorem not_sets (hn : NewName a b n) : ¬ Γ.sets n :=
  fun hs => hn.1 (h.old n (.inr (.inl hs)))

theorem data_ne (hn : NewName a b n) : site.data ≠ n :=
  fun he => hn.1 (he ▸ h.old _ (.inl h.data.1))

theorem loose : Γ.loose.Hosts a c site := ⟨h.seen, h.old, h.data⟩

theorem firm (names : List Name) : (Γ.firm names).Hosts a c site :=
  ⟨h.seen, h.old, h.data⟩

theorem frozen : Γ.frozen.Hosts a c site :=
  h.extend (fun _ => id) (fun n hr => h.old n (hr.imp_right (Or.imp_left False.elim))) id
    fun _ => id

theorem frozenIf (x : Bool) : (Γ.frozenIf x).Hosts a c site :=
  h.extend (fun _ => id) (fun n hr => h.old n (hr.imp_right (Or.imp_left And.right)))
    (fun hs => h.data.2.1 hs.2) fun _ => id

theorem declare (hn : a.names ≤ b.names) {names : List Name}
    (hnew : ∀ n ∈ names, NewName a b n) : (Γ.declare names).Hosts b c site := by
  refine h.extend (fun n hr => .inl hr) (fun n hr => ?_) (fun hs => ?_) fun _ => id
  · rcases hr with (hr | hr) | (hs | hs) | hm
    · exact (h.old n (.inl hr)).mono hn
    · exact (hnew n hr).2
    · exact (h.old n (.inr (.inl hs))).mono hn
    · exact (hnew n hs).2
    · exact (h.old n (.inr (.inr hm))).mono hn
  · exact hs.elim h.data.2.1 fun hmem => h.data_ne (hnew _ hmem) rfl

theorem marked (hn : a.names ≤ b.names) {before : Name}
    (hnew : NewName a b before) : (Γ.marked before).Hosts b c site := by
  refine h.extend (fun _ => id) (fun n hr => ?_) h.data.2.1 fun _ => id
  rcases hr with hr | hs | hm | rfl
  · exact (h.old n (.inl hr)).mono hn
  · exact (h.old n (.inr (.inl hs))).mono hn
  · exact (h.old n (.inr (.inr hm))).mono hn
  · exact hnew.2

theorem inLoop (hn : a.names ≤ b.names) {var : Name}
    (hnew : NewName a b var) (along : Traversal) : (Γ.inLoop var along).Hosts b c site := by
  refine h.extend (fun n hr => .inl hr) (fun n hr => ?_) h.data.2.1 fun n hb => .inl hb
  rcases hr with (hr | rfl) | hs | hm
  · exact (h.old n (.inl hr)).mono hn
  · exact hnew.2
  · exact (h.old n (.inr (.inl hs))).mono hn
  · exact (h.old n (.inr (.inr hm))).mono hn

end Hosts

namespace Offers

variable {τ : Terms}

theorem seen (h : Γ.Offers a c o τ) : o.site.Seen c.Has Γ.reads := h.host.seen

theorem later (h : Γ.Offers a c o τ) (hn : a.names ≤ b.names) : Γ.Offers b c o τ :=
  { h with host := h.host.later hn }

theorem before (h : Γ.Offers a d o τ) (hg : Growth c d) : Γ.Offers a c o τ :=
  { h with host := h.host.before hg }

theorem mono {σ : Terms} (h : Γ.Offers a c o σ) (hτ : τ.Within σ) : Γ.Offers a c o τ :=
  ⟨h.host, h.code, fun n hn => (hτ.reads n hn).elim (h.reads n) fun hs => (h.sets n hs).1,
    fun n hn => h.sets n (hτ.sets n hn), fun n hn => h.parts n (hτ.parts n hn),
    fun hf => h.firm (hτ.firm hf)⟩

variable (h : Γ.Offers a c o τ)

include h

theorem loose : Γ.loose.Offers a c o τ :=
  ⟨h.host.loose, h.code, h.reads, h.sets, h.parts, h.firm⟩

theorem given (condition : Expr) :
    (Γ.firm condition.firms).Offers a c o (τ.given o.site.data condition) := by
  refine ⟨h.host.firm _, h.code, h.reads, h.sets, h.parts, fun hf => ?_⟩
  rcases Bool.or_eq_true_iff.1 hf with hf | hf
  · exact .inl (h.firm hf)
  · exact .inr (by simpa using hf)

theorem frozen : Γ.frozen.Offers a c o τ.frozen := by
  refine ⟨h.host.frozen, h.code, fun n hn => ?_, by simp [Terms.frozen], fun n hn => ?_, h.firm⟩
  · exact (List.mem_append.1 hn).elim (h.reads n) fun hn => (h.sets n hn).1
  · exact ⟨(h.parts n hn).1, id, (h.parts n hn).2.2⟩

theorem declare (hn : a.names ≤ b.names) {names : List Name}
    (hnew : ∀ n ∈ names, NewName a b n) : (Γ.declare names).Offers b c o (τ.declare names) := by
  refine ⟨h.host.declare hn hnew, fun e he => (h.code e he).mono fun _ => .inl,
    fun n hr => .inl (h.reads n hr), fun n hs => ?_, fun n hp => ?_, h.firm⟩
  · rcases List.mem_append.1 hs with hs | hs
    · exact ⟨.inl (h.sets n hs).1, .inl (h.sets n hs).2.1, (h.sets n hs).2.2⟩
    · exact ⟨.inr hs, .inr hs, (h.host.fresh (hnew n hs)).2⟩
  · refine ⟨.inl (h.parts n hp).1, fun hs => ?_, (h.parts n hp).2.2⟩
    exact hs.elim (h.parts n hp).2.1 fun hmem =>
      (hnew n hmem).1 (h.host.old n (.inl (h.parts n hp).1))

theorem marked (hn : a.names ≤ b.names) {before : Name}
    (hnew : NewName a b before) : (Γ.marked before).Offers b c o τ := by
  refine ⟨h.host.marked hn hnew, h.code, h.reads, fun n hs => ?_, h.parts, h.firm⟩
  refine ⟨(h.sets n hs).1, (h.sets n hs).2.1, ?_⟩
  rintro (hm | rfl)
  · exact (h.sets n hs).2.2 hm
  · exact hnew.1 (h.host.old n (.inl (h.sets n hs).1))

theorem inLoop (hn : a.names ≤ b.names) {var : Name}
    (hnew : NewName a b var) (along : Traversal) (breaks : Bool) :
    ((Γ.frozenIf breaks).inLoop var along).Offers b c o
      (τ.inLoop o.site.data var along breaks) := by
  have hold : ∀ n, Γ.Holds n → ((Γ.frozenIf breaks).inLoop var along).Holds n := fun n hp =>
    ⟨.inl hp.1, fun hs => hp.2.1 hs.2, hp.2.2.imp id .inl⟩
  refine ⟨(h.host.frozenIf breaks).inLoop hn hnew along,
    fun e he => (h.code e he).mono fun _ => .inl, fun n hr => ?_, fun n hs => ?_, fun n hp => ?_, fun hf => ?_⟩
  · rcases List.mem_append.1 hr with hr | hr
    · exact (List.mem_cons.1 hr).elim .inr fun hr => .inl (h.reads n hr)
    · exact .inl (h.sets n hr).1
  · cases breaks with
    | true => simp [Terms.inLoop] at hs
    | false => exact ⟨.inl (h.sets n hs).1, ⟨rfl, (h.sets n hs).2.1⟩, (h.sets n hs).2.2⟩
  · simp only [Terms.inLoop] at hp
    split at hp
    · split at hp
      · rename_i m hm
        subst hm
        rcases List.mem_cons.1 hp with rfl | hp
        · refine ⟨.inr rfl, fun hs => h.host.not_sets hnew hs.2, .inr (.inr ⟨rfl, ?_⟩)⟩
          exact ⟨h.host.data.1, fun hs => h.host.data.2.1 hs.2, h.host.data.2.2⟩
        · exact hold n (h.parts n hp)
      · exact hold n (h.parts n hp)
    · exact hold n (h.parts n hp)
  · rcases Bool.or_eq_true_iff.1 hf with hf | hf
    · exact .inl (h.firm hf)
    · exact .inr (by simpa using hf)

end Offers
end Context

end SchemaCompiler
