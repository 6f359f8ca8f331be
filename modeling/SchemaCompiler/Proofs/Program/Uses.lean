import SchemaCompiler.Program.Stmt

/-!
# The names of a function

Which names a function uses is told by its parts: an expression uses what its parts use, a statement
what it sets itself and what its expressions and blocks use. `FunctionDef.referencedNames` lists these
and no others. Some of the names are brought into being by the function itself.
-/
namespace SchemaCompiler

variable {n : Name} {e : Expr} {s : Stmt}

/-! ## Expressions -/

namespace Expr

def parts : Expr → List Expr
  | lit _ => []
  | var _ => []
  | errorCount => []
  | index a b => [a, b]
  | has a b => [a, b]
  | binary _ a b => [a, b]
  | slice text start _ => [text, start]
  | not a => [a]
  | typeIs a _ => [a]
  | len a => [a]
  | await a => [a]
  | and items => items
  | or items => items
  | array items => items
  | call callee args => callee :: args
  | object members => members.map Prod.snd

/-- A name stands in an expression. -/
inductive Uses (n : Name) : Expr → Prop
  | var : Uses n (.var n)
  | part {e p : Expr} (hp : p ∈ e.parts) (h : Uses n p) : Uses n e

theorem mem_namesOfItems {items : List Expr} :
    n ∈ namesOfItems items ↔ ∃ e ∈ items, n ∈ e.names := by
  induction items with
  | nil => simp [namesOfItems]
  | cons e rest ih => simp [namesOfItems, ih]

theorem mem_namesOfMembers {members : List (String × Expr)} :
    n ∈ namesOfMembers members ↔ ∃ e ∈ members.map Prod.snd, n ∈ e.names := by
  induction members with
  | nil => simp [namesOfMembers]
  | cons m rest ih =>
    rw [namesOfMembers, List.mem_append, ih]
    simp

theorem mem_names_iff_parts : n ∈ e.names ↔ e = .var n ∨ ∃ p ∈ e.parts, n ∈ p.names := by
  cases e with
  | var m => simp [names, parts, eq_comm]
  | and items | or items | array items => simp [names, parts, mem_namesOfItems]
  | call callee args => simp [names, parts, mem_namesOfItems]
  | object members => rw [names, mem_namesOfMembers]; simp [parts]
  | _ => simp [names, parts]

theorem induction_parts {motive : Expr → Prop}
    (h : ∀ e, (∀ p ∈ e.parts, motive p) → motive e) (e : Expr) : motive e := by
  refine @Expr.rec motive (fun items => ∀ p ∈ items, motive p)
    (fun members => ∀ m ∈ members, motive m.2) (fun m => motive m.2) ?lit ?var ?index ?has ?not ?and
    ?or ?binary ?typeIs ?len ?slice ?call ?await ?object ?array ?errorCount ?nil ?cons ?nil' ?cons'
    ?pair e
  case cons | cons' => exact fun _ _ hp hrest => List.forall_mem_cons.2 ⟨hp, hrest⟩
  case pair => exact fun _ _ hm => hm
  case object => exact fun members ih => h _ (List.forall_mem_map.2 ih)
  all_goals
    intros
    refine h _ ?_
    clear h
    simp_all [parts]

theorem uses_iff (e : Expr) : e.Uses n ↔ n ∈ e.names := by
  constructor
  · intro h
    induction h with
    | var => simp [names]
    | part hp _ ih => exact mem_names_iff_parts.2 (.inr ⟨_, hp, ih⟩)
  · intro h
    induction e using induction_parts with
    | h e ih =>
      rcases mem_names_iff_parts.1 h with rfl | ⟨p, hp, hn⟩
      · exact .var
      · exact .part hp (ih p hp hn)

/-! ### Names of composed expressions -/

theorem mem_names_negate (h : n ∈ e.negate.names) : n ∈ e.names := by
  unfold negate at h
  split at h
  · simp [bool, names] at h
  all_goals simpa [names] using h

theorem mem_names_plus {a b : Expr} (h : n ∈ (a.plus b).names) : n ∈ a.names ∨ n ∈ b.names := by
  unfold plus at h
  split at h
  · cases h
  · simpa [names, str] using h
  · simpa [names] using h

end Expr

/-! ## Statements -/

namespace Stmt

def own : Stmt → List Name
  | declare n _ _ => [n]
  | assign n _ => [n]
  | setIndex target _ _ => [target]
  | push target _ => [target]
  | forRange var _ _ _ => [var]
  | forKeys var _ _ => [var]
  | forEach var _ _ => [var]
  | handled _ caught _ _ => [caught]
  | _ => []

def exprs : Stmt → List Expr
  | declare _ value _ => value.toList
  | assign _ e => [e]
  | setIndex _ key e => [key, e]
  | push _ e => [e]
  | expr e => [e]
  | branch condition _ _ => [condition]
  | forRange _ start stop _ => [start, stop]
  | forKeys _ object _ => [object]
  | forEach _ iterable _ => [iterable]
  | .return e => [e]
  | throw e => [e]
  | addError e => [e]
  | resetErrors e => [e]
  | _ => []

def blocks : Stmt → List (List Stmt)
  | branch _ yes no => [yes, no]
  | forRange _ _ _ body => [body]
  | forKeys _ _ body => [body]
  | forEach _ _ body => [body]
  | loop body => [body]
  | handled body _ handler closing => [body, handler, closing]
  | guarded body closing => [body, closing]
  | _ => []

/-- A name stands in a statement. -/
inductive Uses (n : Name) : Stmt → Prop
  | own {s : Stmt} (h : n ∈ s.own) : Uses n s
  | expr {s : Stmt} {e : Expr} (he : e ∈ s.exprs) (h : e.Uses n) : Uses n s
  | block {s t : Stmt} {b : List Stmt} (hb : b ∈ s.blocks) (ht : t ∈ b) (h : Uses n t) : Uses n s

theorem mem_namesOfBlock {stmts : List Stmt} : n ∈ namesOfBlock stmts ↔ ∃ s ∈ stmts, n ∈ s.names := by
  induction stmts with
  | nil => simp [namesOfBlock]
  | cons s rest ih => simp [namesOfBlock, ih]

theorem mem_names_iff_parts : n ∈ s.names ↔
    n ∈ s.own ∨ (∃ e ∈ s.exprs, n ∈ e.names) ∨ ∃ b ∈ s.blocks, n ∈ namesOfBlock b := by
  cases s with
  | declare m value constant => cases value <;> simp [names, own, exprs, blocks]
  | handled body caught handler closing =>
    simp only [names, own, exprs, blocks]
    grind
  | branch condition yes no => simp [names, own, exprs, blocks]
  | forRange var start stop body => simp [names, own, exprs, blocks, or_assoc]
  | _ => simp [names, own, exprs, blocks]

theorem sizeOf_lt_of_mem_blocks {t : Stmt} {b : List Stmt} (hb : b ∈ s.blocks) (ht : t ∈ b) :
    sizeOf t < sizeOf s := by
  have hlt := List.sizeOf_lt_of_mem ht
  cases s <;> simp [blocks] at hb <;> rcases hb with rfl | rfl | rfl <;> simp <;> omega

theorem uses_iff (s : Stmt) : s.Uses n ↔ n ∈ s.names := by
  constructor
  · intro h
    induction h with
    | own h => exact mem_names_iff_parts.2 (.inl h)
    | expr he h => exact mem_names_iff_parts.2 (.inr (.inl ⟨_, he, (Expr.uses_iff _).1 h⟩))
    | block hb ht _ ih =>
      exact mem_names_iff_parts.2 (.inr (.inr ⟨_, hb, mem_namesOfBlock.2 ⟨_, ht, ih⟩⟩))
  · intro h
    rcases mem_names_iff_parts.1 h with h | ⟨e, he, h⟩ | ⟨b, hb, h⟩
    · exact .own h
    · exact .expr he ((Expr.uses_iff e).2 h)
    · obtain ⟨t, ht, h⟩ := mem_namesOfBlock.1 h
      have := sizeOf_lt_of_mem_blocks hb ht
      exact .block hb ht ((uses_iff t).2 h)
termination_by sizeOf s

mutual
def bound : Stmt → List Name
  | declare n _ _ => [n]
  | branch _ yes no => boundOf yes ++ boundOf no
  | forRange var _ _ body => var :: boundOf body
  | forKeys var _ body => var :: boundOf body
  | forEach var _ body => var :: boundOf body
  | loop body => boundOf body
  | handled body caught handler closing =>
    boundOf body ++ caught :: (boundOf handler ++ boundOf closing)
  | guarded body closing => boundOf body ++ boundOf closing
  | _ => []

def boundOf : List Stmt → List Name
  | [] => []
  | s :: rest => bound s ++ boundOf rest
end

theorem namesOfBlock_append (b c : List Stmt) :
    namesOfBlock (b ++ c) = namesOfBlock b ++ namesOfBlock c := by
  induction b with
  | nil => rfl
  | cons s rest ih => simp [namesOfBlock, ih]

theorem boundOf_append (b c : List Stmt) : boundOf (b ++ c) = boundOf b ++ boundOf c := by
  induction b with
  | nil => rfl
  | cons s rest ih => simp [boundOf, ih]

def Known (K : Name → Prop) (code : List Stmt) : Prop :=
  ∀ n ∈ namesOfBlock code, K n ∨ n ∈ boundOf code

namespace Known

variable {K L : Name → Prop} {b c : List Stmt}

theorem nil : Known K [] := by simp [Known, namesOfBlock]

theorem mono (h : Known K b) (hk : ∀ n, K n → L n) : Known L b :=
  fun n hn => (h n hn).imp (hk n) id

theorem append (hb : Known K b) (hc : Known (fun n => K n ∨ n ∈ boundOf b) c) : Known K (b ++ c) := by
  intro n hn
  rw [boundOf_append]
  rcases List.mem_append.1 (namesOfBlock_append b c ▸ hn) with hn | hn
  · exact (hb n hn).imp id (List.mem_append_left _)
  · rcases hc n hn with (hk | hk) | hk
    · exact .inl hk
    · exact .inr (List.mem_append_left _ hk)
    · exact .inr (List.mem_append_right _ hk)

theorem append_of (hb : Known K b) (hc : Known K c) : Known K (b ++ c) :=
  hb.append (hc.mono fun _ => .inl)

theorem cons (hs : Known K [s]) (hc : Known (fun n => K n ∨ n ∈ bound s) c) : Known K (s :: c) :=
  append hs (hc.mono fun n hn => by simpa [boundOf] using hn)

theorem branch {condition : Expr} {yes no : List Stmt} (he : ∀ n ∈ condition.names, K n)
    (hy : Known K yes) (hn : Known K no) : Known K [.branch condition yes no] := by
  intro n hmem
  simp only [namesOfBlock, names, List.append_nil, List.mem_append] at hmem
  simp only [boundOf, bound, List.append_nil, List.mem_append]
  rcases hmem with (hmem | hmem) | hmem
  · exact .inl (he n hmem)
  · exact (hy n hmem).imp id .inl
  · exact (hn n hmem).imp id .inr

theorem declare {m : Name} {constant : Bool} (he : ∀ n ∈ e.names, K n) :
    Known K [.declare m (some e) constant] := by
  intro n hmem
  simp only [namesOfBlock, names, List.append_nil,
    List.mem_cons] at hmem
  simpa [boundOf, bound] using hmem.symm.imp (he n) id

theorem around {var : Name} {head : List Name} {body : List Stmt}
    (hs : s.names = var :: (head ++ namesOfBlock body)) (hb : s.bound = var :: boundOf body)
    (hhead : ∀ n ∈ head, K n) (hbody : Known (fun n => K n ∨ n = var) body) : Known K [s] := by
  intro n hn
  simp only [namesOfBlock, hs, List.append_nil, List.mem_cons, List.mem_append] at hn
  simp only [boundOf, hb, List.append_nil, List.mem_cons]
  rcases hn with rfl | hn | hn
  · exact .inr (.inl rfl)
  · exact .inl (hhead n hn)
  · rcases hbody n hn with (hk | rfl) | hk
    · exact .inl hk
    · exact .inr (.inl rfl)
    · exact .inr (.inr hk)

end Known
end Stmt

namespace FunctionDef

def Uses (f : FunctionDef) (n : Name) : Prop := ∃ s ∈ f.body, s.Uses n

def locals (f : FunctionDef) : List Name := Stmt.boundOf f.body

theorem uses_iff {f : FunctionDef} : f.Uses n ↔ n ∈ f.referencedNames := by
  simp only [Uses, referencedNames, Stmt.mem_namesOfBlock, Stmt.uses_iff]

end FunctionDef
end SchemaCompiler
