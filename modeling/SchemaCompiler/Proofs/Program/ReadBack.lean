import SchemaCompiler.Proofs.Decode.Reads
import SchemaCompiler.Proofs.Json.Printing
import SchemaCompiler.StoredModule

/-!
# Stored modules read back

A module that is written down and read again is the module that it was. The JSON form of each
construct is decoded to the construct, and the text of the JSON form is read as that form. The
literals may be any data without doubles; the text may nest as deep as the reader goes.
-/
namespace SchemaCompiler
open Decode

variable {m : StoredModule} {p : Json.Number → Prop}

/-! ## What can be stored -/

/-- Data without doubles: integers are integers of 64 bits, and no object repeats a name. -/
def Json.Storable (v : Json) : Prop := v.Distinct ∧ v.AllNumbers Number.IsInteger

namespace Expr

mutual
def Storable : Expr → Prop
  | lit v => v.Storable
  | slice text start n => Storable text ∧ Storable start ∧ n ≤ Json.maxUnsigned
  | index a k => Storable a ∧ Storable k
  | has a k => Storable a ∧ Storable k
  | binary _ a b => Storable a ∧ Storable b
  | not a => Storable a
  | typeIs a _ => Storable a
  | len a => Storable a
  | await a => Storable a
  | and items => StorableItems items
  | or items => StorableItems items
  | array items => StorableItems items
  | call callee args => Storable callee ∧ StorableItems args
  | object members => StorableMembers members
  | var _ => True
  | errorCount => True

def StorableItems : List Expr → Prop
  | [] => True
  | e :: rest => Storable e ∧ StorableItems rest

def StorableMembers : List (String × Expr) → Prop
  | [] => True
  | (_, e) :: rest => Storable e ∧ StorableMembers rest
end

end Expr

namespace Stmt

mutual
def Storable : Stmt → Prop
  | declare _ value _ => ∀ e ∈ value, e.Storable
  | assign _ value => value.Storable
  | setIndex _ key value => key.Storable ∧ value.Storable
  | push _ value => value.Storable
  | expr e => e.Storable
  | branch condition yes no => condition.Storable ∧ StorableBlock yes ∧ StorableBlock no
  | forRange _ start stop body => start.Storable ∧ stop.Storable ∧ StorableBlock body
  | forKeys _ object body => object.Storable ∧ StorableBlock body
  | forEach _ iterable body => iterable.Storable ∧ StorableBlock body
  | loop body => StorableBlock body
  | leave => True
  | .return e => e.Storable
  | throw e => e.Storable
  | handled body _ handler closing =>
    StorableBlock body ∧ StorableBlock handler ∧ StorableBlock closing
  | guarded body closing => StorableBlock body ∧ StorableBlock closing
  | addError e => e.Storable
  | resetErrors e => e.Storable

def StorableBlock : List Stmt → Prop
  | [] => True
  | s :: rest => Storable s ∧ StorableBlock rest
end

end Stmt

def StoredValue.Storable : StoredValue → Prop
  | json v => v.Storable
  | forward slot => slot ≤ Json.maxUnsigned
  | _ => True

/-- A module can be stored: its functions, its values and the bound on its recursion. -/
structure StoredModule.Storable (m : StoredModule) : Prop where
  maxDepth_le : m.maxDepth ≤ Json.maxUnsigned
  functions : ∀ f ∈ m.functions, Stmt.StorableBlock f.body
  values : ∀ v ∈ m.values, v.2.Storable

/-! ## Names and operators -/

theorem Name.reads_toJson (n : Name) : Reads Name.decode n.toJson n := by
  have hn : Name.ofString? n.text = some n := Name.ofString?_eq_some_iff.mpr rfl
  simp [Reads, Name.toJson, Json.Draft.ofJson, Name.decode, Decode.string, hn]

theorem BinaryOp.reads_tag (op : BinaryOp) : Reads BinaryOp.decode (.string op.tag) op :=
  reads_names (by cases op <;> rfl)

theorem JsonType.reads_name (t : JsonType) : Reads JsonType.decode (.string t.name) t :=
  reads_names (by cases t <;> rfl)

/-! ## Expressions -/

@[simp] theorem nesting_tagged (tag : String) (content : Json) :
    (tagged tag content).nesting = content.nesting + 1 := by
  simp [tagged, Json.nesting, Json.nestingMembers]

@[simp] theorem Name.nesting_toJson (n : Name) : n.toJson.nesting = 0 := rfl

namespace Expr

theorem toJson_ne_null (e : Expr) : e.toJson ≠ .null := by
  cases e <;> simp [toJson, tagged]

mutual
/-- The JSON form of an expression is decoded to the expression, with levels for its nesting. -/
theorem reads_decodeWithin : (e : Expr) → (levels : Nat) → e.Storable →
    e.toJson.nesting < levels → Reads (decodeWithin levels) e.toJson e
  | _, 0, _, hn => absurd hn (Nat.not_lt_zero _)
  | lit v, levels + 1, h, _ => reads_tagged rfl (reads_around (reads_json h.1))
  | var n, levels + 1, _, _ => reads_tagged rfl (reads_around n.reads_toJson)
  | index a k, levels + 1, h, hn | has a k, levels + 1, h, hn => by
    simp only [toJson, nesting_tagged, Json.nesting, Json.nestingItems] at hn
    have ha := reads_decodeWithin a levels h.1 (by omega)
    have hk := reads_decodeWithin k levels h.2 (by omega)
    refine reads_tagged rfl ?_
    exact reads_sequenced (a, k, ()) rfl ⟨_, _, rfl, ha, _, _, rfl, hk, rfl⟩
  | not a, levels + 1, h, hn | len a, levels + 1, h, hn | await a, levels + 1, h, hn => by
    simp only [toJson, nesting_tagged] at hn
    have ha := reads_decodeWithin a levels h (by omega)
    exact reads_tagged rfl (reads_around ha)
  | and items, levels + 1, h, hn | or items, levels + 1, h, hn | array items, levels + 1, h, hn => by
    simp only [toJson, nesting_tagged, Json.nesting] at hn
    exact reads_tagged rfl (reads_around (reads_list (reads_items items levels h (by omega))))
  | binary op a b, levels + 1, h, hn => by
    simp only [toJson, nesting_tagged, Json.nesting, Json.nestingItems] at hn
    have ha := reads_decodeWithin a levels h.1 (by omega)
    have hb := reads_decodeWithin b levels h.2 (by omega)
    refine reads_tagged rfl ?_
    exact reads_sequenced (op, a, b, ()) rfl
      ⟨_, _, rfl, op.reads_tag, _, _, rfl, ha, _, _, rfl, hb, rfl⟩
  | typeIs a t, levels + 1, h, hn => by
    simp only [toJson, nesting_tagged, Json.nesting, Json.nestingItems] at hn
    have ha := reads_decodeWithin a levels h (by omega)
    refine reads_tagged rfl ?_
    exact reads_sequenced (a, t, ()) rfl ⟨_, _, rfl, ha, _, _, rfl, t.reads_name, rfl⟩
  | slice text start n, levels + 1, h, hn => by
    simp only [toJson, nesting_tagged, Json.nesting, Json.nestingMembers] at hn
    have htext := reads_decodeWithin text levels h.1 (by omega)
    have hstart := reads_decodeWithin start levels h.2.1 (by omega)
    refine reads_tagged rfl ?_
    exact reads_structured (text, start, n, ()) rfl (by simp)
      ⟨_, _, rfl, htext, _, _, rfl, hstart, _, _, rfl, reads_nat n, rfl⟩
  | call callee args, levels + 1, h, hn => by
    simp only [toJson, nesting_tagged, Json.nesting, Json.nestingItems] at hn
    have hcallee := reads_decodeWithin callee levels h.1 (by omega)
    have hargs := reads_list (reads_items args levels h.2 (by omega))
    refine reads_tagged rfl ?_
    exact reads_sequenced (callee, args, ()) rfl ⟨_, _, rfl, hcallee, _, _, rfl, hargs, rfl⟩
  | object members, levels + 1, h, hn => by
    simp only [toJson, nesting_tagged, Json.nesting] at hn
    exact reads_tagged rfl (reads_around (reads_list (reads_members members levels h (by omega))))
  | errorCount, levels + 1, _, _ => reads_bare rfl

theorem reads_items : (items : List Expr) → (levels : Nat) → StorableItems items →
    Json.nestingItems (itemsToJson items) < levels →
    List.Forall₂ (Reads (decodeWithin levels)) (itemsToJson items) items
  | [], _, _, _ => .nil
  | e :: rest, levels, h, hn => by
    simp only [itemsToJson, Json.nestingItems] at hn
    exact .cons (reads_decodeWithin e levels h.1 (by omega)) (reads_items rest levels h.2 (by omega))

theorem reads_members : (members : List (String × Expr)) → (levels : Nat) →
    StorableMembers members → Json.nestingItems (membersToJson members) < levels →
    List.Forall₂ (Reads (pair Decode.string (decodeWithin levels))) (membersToJson members) members
  | [], _, _, _ => .nil
  | (k, e) :: rest, levels, h, hn => by
    simp only [membersToJson, Json.nestingItems, Json.nesting] at hn
    have he := reads_decodeWithin e levels h.1 (by omega)
    exact .cons (reads_pair (reads_string k) he) (reads_members rest levels h.2 (by omega))
end

theorem reads_toJson {e : Expr} (h : e.Storable) : Reads decode e.toJson e := by
  have hlevels : e.toJson.nesting < e.toJson.nesting + 1 := Nat.lt_succ_self _
  simpa [Reads, decode] using reads_decodeWithin e _ h hlevels

end Expr

/-! ## Statements -/

namespace Stmt

theorem reads_value {value : Option Expr} (h : ∀ e ∈ value, e.Storable) :
    Reads (option Expr.decode) ((value.map Expr.toJson).getD .null) value := by
  cases value with
  | none => exact reads_option_null _
  | some e => exact reads_option e.toJson_ne_null (Expr.reads_toJson (h e rfl))

mutual
/-- The JSON form of a statement is decoded to the statement, with levels for its nesting. -/
theorem reads_decodeWithin : (s : Stmt) → (levels : Nat) → s.Storable →
    s.toJson.nesting < levels → Reads (decodeWithin levels) s.toJson s
  | _, 0, _, hn => absurd hn (Nat.not_lt_zero _)
  | declare n value constant, levels + 1, h, _ => by
    refine reads_tagged rfl ?_
    exact reads_structured (n, value, constant, ()) rfl (by simp)
      ⟨_, _, rfl, n.reads_toJson, _, _, rfl, reads_value h, _, _, rfl, reads_bool constant, rfl⟩
  | assign n value, levels + 1, h, _ | push n value, levels + 1, h, _ => by
    refine reads_tagged rfl ?_
    exact reads_structured (n, value, ()) rfl (by simp)
      ⟨_, _, rfl, n.reads_toJson, _, _, rfl, Expr.reads_toJson h, rfl⟩
  | setIndex target key value, levels + 1, h, _ => by
    refine reads_tagged rfl ?_
    exact reads_structured (target, key, value, ()) rfl (by simp)
      ⟨_, _, rfl, target.reads_toJson, _, _, rfl, Expr.reads_toJson h.1, _, _, rfl,
        Expr.reads_toJson h.2, rfl⟩
  | expr e, levels + 1, h, _ | .return e, levels + 1, h, _ | throw e, levels + 1, h, _
  | addError e, levels + 1, h, _ | resetErrors e, levels + 1, h, _ =>
    reads_tagged rfl (reads_around (Expr.reads_toJson h))
  | branch condition yes no, levels + 1, h, hn => by
    simp only [toJson, nesting_tagged, Json.nesting, Json.nestingMembers] at hn
    have hyes := reads_list (reads_block yes levels h.2.1 (by omega))
    have hno := reads_list (reads_block no levels h.2.2 (by omega))
    refine reads_tagged rfl ?_
    exact reads_structured (condition, yes, no, ()) rfl (by simp)
      ⟨_, _, rfl, Expr.reads_toJson h.1, _, _, rfl, hyes, _, _, rfl, hno, rfl⟩
  | forRange var start stop body, levels + 1, h, hn => by
    simp only [toJson, nesting_tagged, Json.nesting, Json.nestingMembers] at hn
    have hbody := reads_list (reads_block body levels h.2.2 (by omega))
    refine reads_tagged rfl ?_
    exact reads_structured (var, start, stop, body, ()) rfl (by simp)
      ⟨_, _, rfl, var.reads_toJson, _, _, rfl, Expr.reads_toJson h.1, _, _, rfl,
        Expr.reads_toJson h.2.1, _, _, rfl, hbody, rfl⟩
  | forKeys var e body, levels + 1, h, hn | forEach var e body, levels + 1, h, hn => by
    simp only [toJson, nesting_tagged, Json.nesting, Json.nestingMembers] at hn
    have hbody := reads_list (reads_block body levels h.2 (by omega))
    refine reads_tagged rfl ?_
    exact reads_structured (var, e, body, ()) rfl (by simp)
      ⟨_, _, rfl, var.reads_toJson, _, _, rfl, Expr.reads_toJson h.1, _, _, rfl, hbody, rfl⟩
  | loop body, levels + 1, h, hn => by
    simp only [toJson, nesting_tagged, Json.nesting, Json.nestingMembers] at hn
    have hbody := reads_list (reads_block body levels h (by omega))
    refine reads_tagged rfl ?_
    exact reads_structured (body, ()) rfl (by simp) ⟨_, _, rfl, hbody, rfl⟩
  | leave, levels + 1, _, _ => reads_bare rfl
  | handled body caught handler closing, levels + 1, h, hn => by
    simp only [toJson, nesting_tagged, Json.nesting, Json.nestingMembers, Json.nestingItems] at hn
    have hbody := reads_list (reads_block body levels h.1 (by omega))
    have hhandler := reads_list (reads_block handler levels h.2.1 (by omega))
    have hclosing := reads_list (reads_block closing levels h.2.2 (by omega))
    have hcatch := reads_option (by simp) (reads_pair caught.reads_toJson hhandler)
    refine reads_tagged rfl ?_
    exact reads_structured (body, some _, closing, ()) rfl (by simp)
      ⟨_, _, rfl, hbody, _, _, rfl, hcatch, _, _, rfl, hclosing, rfl⟩
  | guarded body closing, levels + 1, h, hn => by
    simp only [toJson, nesting_tagged, Json.nesting, Json.nestingMembers] at hn
    have hbody := reads_list (reads_block body levels h.1 (by omega))
    have hclosing := reads_list (reads_block closing levels h.2 (by omega))
    refine reads_tagged rfl ?_
    exact reads_structured (body, none, closing, ()) rfl (by simp)
      ⟨_, _, rfl, hbody, _, _, rfl, reads_option_null _, _, _, rfl, hclosing, rfl⟩

theorem reads_block : (block : List Stmt) → (levels : Nat) → StorableBlock block →
    Json.nestingItems (blockToJson block) < levels →
    List.Forall₂ (Reads (decodeWithin levels)) (blockToJson block) block
  | [], _, _, _ => .nil
  | s :: rest, levels, h, hn => by
    simp only [blockToJson, Json.nestingItems] at hn
    exact .cons (reads_decodeWithin s levels h.1 (by omega)) (reads_block rest levels h.2 (by omega))
end

theorem reads_toJson {s : Stmt} (h : s.Storable) : Reads decode s.toJson s := by
  have hlevels : s.toJson.nesting < s.toJson.nesting + 1 := Nat.lt_succ_self _
  simpa [Reads, decode] using reads_decodeWithin s _ h hlevels

theorem reads_blockToJson {block : List Stmt} (h : StorableBlock block) :
    List.Forall₂ (Reads decode) (blockToJson block) block := by
  induction block with
  | nil => exact .nil
  | cons s rest ih => exact .cons (reads_toJson h.1) (ih h.2)

end Stmt

/-! ## Functions, values and modules -/

theorem forall₂_map {α : Type} {decode : Decoder α} {write : α → Json} {as : List α}
    (h : ∀ a ∈ as, Reads decode (write a) a) : List.Forall₂ (Reads decode) (as.map write) as := by
  induction as with
  | nil => exact .nil
  | cons a as ih => exact .cons (h a (by simp)) (ih fun b hb => h b (by simp [hb]))

theorem FunctionDef.reads_toJson {f : FunctionDef} (h : Stmt.StorableBlock f.body) :
    Reads FunctionDef.decode f.toJson f := by
  have hparams := reads_list (forall₂_map fun n (_ : n ∈ f.params) => n.reads_toJson)
  have hbody := reads_list (Stmt.reads_blockToJson h)
  have hmembers : ReadsMembers
      (.cons (required "name" Name.decode) (.cons (required "params" (list Name.decode))
        (.cons (required "body" (list Stmt.decode)) (.cons (defaulted "isAsync" bool false) .nil))))
      _ (f.name, f.params, f.body, f.isAsync, ()) :=
    ⟨_, _, rfl, f.name.reads_toJson, _, _, rfl, hparams, _, _, rfl, hbody, _, _, rfl,
      reads_bool f.isAsync, rfl⟩
  exact reads_made (reads_record hmembers (by simp) "struct Function") rfl

theorem StoredValue.reads_toJson {v : StoredValue} (h : v.Storable) :
    Reads StoredValue.decode v.toJson v := by
  -- each kind has a reader of its own for the content
  have hread : ∀ {reader : Decoder StoredValue}, Assoc.get? v.kind kinds = some reader →
      Reads reader v.content v → Reads StoredValue.decode v.toJson v := by
    intro reader hkind hcontent
    have hreader : Reads decodeKind _ reader := reads_names hkind
    unfold Reads at hcontent hreader ⊢
    simp [toJson, Json.Draft.ofJson, Json.Draft.ofMembers, decode, advanceAll, advance, hcontent,
      unbroken, Progress.finish, show decodeKind .text (.string v.kind) = .ok reader from hreader]
  cases v with
  | json v => exact hread rfl (reads_map json (reads_json h.1))
  | imported path => exact hread rfl (reads_map imported (reads_string path))
  | pattern source => exact hread rfl (reads_map pattern (reads_string source))
  | function n => exact hread rfl (reads_map function n.reads_toJson)
  | forward slot => exact hread rfl (reads_map forward (reads_nat slot))

theorem StoredModule.reads_toJson (h : m.Storable) : Reads StoredModule.decode m.toJson m := by
  have hfunctions := reads_list
    (forall₂_map fun f (hf : f ∈ m.functions) => f.reads_toJson (h.functions f hf))
  have hvalues : Reads (list _) _ m.values :=
    reads_list (forall₂_map fun v hv =>
      reads_pair v.1.reads_toJson (v.2.reads_toJson (h.values v hv)))
  have hmembers : ReadsMembers
      (.cons (required "entry" Name.decode) (.cons (defaulted "isAsync" Decode.bool false)
        (.cons (required "maxDepth" Decode.nat)
          (.cons (required "functions" (list FunctionDef.decode))
            (.cons (required "values" (list (pair Name.decode StoredValue.decode))) .nil)))))
      _ (m.entry, m.isAsync, m.maxDepth, m.functions, m.values, ()) :=
    ⟨_, _, rfl, m.entry.reads_toJson, _, _, rfl, reads_bool m.isAsync, _, _, rfl,
      reads_nat m.maxDepth, _, _, rfl, hfunctions, _, _, rfl, hvalues, rfl⟩
  exact reads_made (reads_record hmembers (by simp) "struct StandaloneModule") rfl

/-! ## The text of a module -/

theorem Json.isInteger_ofNat {n : Nat} (h : n ≤ maxUnsigned) : (Number.int n).IsInteger :=
  ⟨n, rfl, by simp only [minSigned]; omega, by omega⟩

@[simp] theorem allNumbers_tagged {tag : String} {content : Json} :
    (tagged tag content).AllNumbers p ↔ content.AllNumbers p := by
  simp [tagged, Json.AllNumbers, Json.AllNumbersMembers]

@[simp] theorem Name.allNumbers_toJson (n : Name) :
    n.toJson.AllNumbers p := trivial

namespace Expr

mutual
theorem allNumbers_toJson :
    (e : Expr) → e.Storable → e.toJson.AllNumbers Json.Number.IsInteger
  | lit _, h => allNumbers_tagged.mpr h.2
  | var n, _ => allNumbers_tagged.mpr n.allNumbers_toJson
  | index a k, h | has a k, h => allNumbers_tagged.mpr
    ⟨allNumbers_toJson a h.1, allNumbers_toJson k h.2, trivial⟩
  | not a, h | len a, h | await a, h => allNumbers_tagged.mpr (allNumbers_toJson a h)
  | and items, h | or items, h | array items, h => allNumbers_tagged.mpr (allNumbers_items items h)
  | binary _ a b, h => allNumbers_tagged.mpr
    ⟨trivial, allNumbers_toJson a h.1, allNumbers_toJson b h.2, trivial⟩
  | typeIs a _, h => allNumbers_tagged.mpr ⟨allNumbers_toJson a h, trivial, trivial⟩
  | slice text start _, h => allNumbers_tagged.mpr
    ⟨allNumbers_toJson text h.1, allNumbers_toJson start h.2.1, Json.isInteger_ofNat h.2.2, trivial⟩
  | call callee args, h => allNumbers_tagged.mpr
    ⟨allNumbers_toJson callee h.1, allNumbers_items args h.2, trivial⟩
  | object members, h => allNumbers_tagged.mpr (allNumbers_members members h)
  | errorCount, _ => trivial

theorem allNumbers_items : (items : List Expr) → StorableItems items →
    Json.AllNumbersItems Json.Number.IsInteger (itemsToJson items)
  | [], _ => trivial
  | e :: rest, h => ⟨allNumbers_toJson e h.1, allNumbers_items rest h.2⟩

theorem allNumbers_members : (members : List (String × Expr)) → StorableMembers members →
    Json.AllNumbersItems Json.Number.IsInteger (membersToJson members)
  | [], _ => trivial
  | (_, e) :: rest, h =>
    ⟨⟨trivial, allNumbers_toJson e h.1, trivial⟩, allNumbers_members rest h.2⟩
end

end Expr

namespace Stmt

mutual
theorem allNumbers_toJson :
    (s : Stmt) → s.Storable → s.toJson.AllNumbers Json.Number.IsInteger
  | declare _ none _, _ => allNumbers_tagged.mpr ⟨trivial, trivial, trivial, trivial⟩
  | declare _ (some e) _, h => allNumbers_tagged.mpr
    ⟨trivial, e.allNumbers_toJson (h e rfl), trivial, trivial⟩
  | assign _ value, h | push _ value, h => allNumbers_tagged.mpr
    ⟨trivial, value.allNumbers_toJson h, trivial⟩
  | setIndex _ key value, h => allNumbers_tagged.mpr
    ⟨trivial, key.allNumbers_toJson h.1, value.allNumbers_toJson h.2, trivial⟩
  | expr e, h | .return e, h | throw e, h | addError e, h | resetErrors e, h =>
    allNumbers_tagged.mpr (e.allNumbers_toJson h)
  | branch condition yes no, h => allNumbers_tagged.mpr
    ⟨condition.allNumbers_toJson h.1, allNumbers_block yes h.2.1, allNumbers_block no h.2.2,
      trivial⟩
  | forRange _ start stop body, h => allNumbers_tagged.mpr
    ⟨trivial, start.allNumbers_toJson h.1, stop.allNumbers_toJson h.2.1,
      allNumbers_block body h.2.2, trivial⟩
  | forKeys _ e body, h | forEach _ e body, h => allNumbers_tagged.mpr
    ⟨trivial, e.allNumbers_toJson h.1, allNumbers_block body h.2, trivial⟩
  | loop body, h => allNumbers_tagged.mpr ⟨allNumbers_block body h, trivial⟩
  | leave, _ => trivial
  | handled body _ handler closing, h => allNumbers_tagged.mpr
    ⟨allNumbers_block body h.1, ⟨trivial, allNumbers_block handler h.2.1, trivial⟩,
      allNumbers_block closing h.2.2, trivial⟩
  | guarded body closing, h => allNumbers_tagged.mpr
    ⟨allNumbers_block body h.1, trivial, allNumbers_block closing h.2, trivial⟩

theorem allNumbers_block : (block : List Stmt) → StorableBlock block →
    Json.AllNumbersItems Json.Number.IsInteger (blockToJson block)
  | [], _ => trivial
  | s :: rest, h => ⟨allNumbers_toJson s h.1, allNumbers_block rest h.2⟩
end

end Stmt

theorem StoredValue.allNumbers_content {v : StoredValue} (h : v.Storable) :
    v.content.AllNumbers Json.Number.IsInteger := by
  cases v with
  | json v => exact h.2
  | forward slot => exact Json.isInteger_ofNat h
  | _ => trivial

namespace StoredModule

theorem allNumbers_toJson (h : m.Storable) : m.toJson.AllNumbers Json.Number.IsInteger := by
  refine ⟨trivial, trivial, Json.isInteger_ofNat h.maxDepth_le, ?_, ?_, trivial⟩
  · refine Json.allNumbersItems_iff.mpr fun v hv => ?_
    obtain ⟨f, hf, rfl⟩ := List.mem_map.mp hv
    refine ⟨trivial, Json.allNumbersItems_iff.mpr fun v hv => ?_, ?_, trivial, trivial⟩
    · obtain ⟨n, -, rfl⟩ := List.mem_map.mp hv
      exact n.allNumbers_toJson
    · exact Stmt.allNumbers_block f.body (h.functions f hf)
  · refine Json.allNumbersItems_iff.mpr fun v hv => ?_
    obtain ⟨entry, hentry, rfl⟩ := List.mem_map.mp hv
    have hcontent := StoredValue.allNumbers_content (h.values entry hentry)
    exact ⟨trivial, ⟨trivial, hcontent, trivial⟩, trivial⟩

/-- The text of a module is read as the module. -/
theorem read_write (m : StoredModule) (h : m.Storable) (hn : m.toJson.nesting ≤ 127) :
    read m.write = .ok m := by
  have hspells := Json.spells_render m.toJson
    ((allNumbers_toJson h).imp fun _ hn => .inl hn) []
  rw [List.append_nil] at hspells
  have hdraft : Json.readDraft m.write.toList = (Json.Draft.ofJson m.toJson, some []) :=
    Json.readDraft_of_spells (.nil _) hspells Json.numberEnd_nil (Nat.lt_succ_of_le hn)
  have hdecode : decode .text (Json.Draft.ofJson m.toJson) = .ok m := reads_toJson h
  rw [read, hdraft]
  simp only [hdecode]

/-- A module whose function has a handler and a literal object, with a value of each kind. -/
def sample : StoredModule where
  entry := ⟨"validate0", rfl⟩
  isAsync := false
  maxDepth := 512
  functions := [⟨⟨"validate0", rfl⟩, [⟨"data", rfl⟩],
    [.handled
      [.branch (.and [.typeIs (.var ⟨"data", rfl⟩) .string, .errorCount])
        [.return (.slice (.var ⟨"data", rfl⟩) (.lit (.number (.int (-1)))) 3)] [.leave]]
      ⟨"e0", rfl⟩ [.throw (.lit (.object [("a\"", .array [.null]), ("", .bool true)]))]
      [.declare ⟨"x0", rfl⟩ none false]], false⟩]
  values := [(⟨"v0", rfl⟩, .json (.number (.int (2 ^ 64 - 1)))),
    (⟨"v1", rfl⟩, .imported "runtime/equal"), (⟨"v2", rfl⟩, .pattern "^a\\d$"),
    (⟨"v3", rfl⟩, .function ⟨"validate0", rfl⟩), (⟨"v4", rfl⟩, .forward 7)]

theorem read_write_sample :
    sample.Storable ∧ sample.toJson.nesting ≤ 127 ∧ read sample.write = .ok sample := by
  have hint : ∀ i : Int, Json.minSigned ≤ i → i ≤ Json.maxUnsigned →
      (Json.Number.int i).IsInteger := fun i hmin hmax => ⟨i, rfl, hmin, hmax⟩
  have hstorable : sample.Storable := by
    refine ⟨by decide, ?_, ?_⟩
    · simp [sample, Stmt.StorableBlock, Stmt.Storable, Expr.Storable, Expr.StorableItems,
        Json.Storable, Json.Distinct, Json.DistinctMembers, Json.DistinctItems, Json.AllNumbers,
        Json.AllNumbersMembers, Json.AllNumbersItems, Json.maxUnsigned]
      exact hint (-1) (by decide) (by decide)
    · simp [sample, StoredValue.Storable, Json.Storable, Json.Distinct, Json.AllNumbers,
        Json.maxUnsigned]
      exact hint 18446744073709551615 (by decide) (by decide)
  have hnesting : sample.toJson.nesting ≤ 127 := by decide
  exact ⟨hstorable, hnesting, read_write sample hstorable hnesting⟩

end StoredModule
end SchemaCompiler
