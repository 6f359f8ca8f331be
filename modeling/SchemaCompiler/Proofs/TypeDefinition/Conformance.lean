import SchemaCompiler.TypeDefinition.Form

/-!
# Which values are of a form

Conformance follows the eight forms. A reference is unfolded: a value is of the form of a name when
it is of the form that the name stands for. Forms may refer to each other in circles, so that the
unfolding is bounded by a number of calls, and a value conforms if it does within some bound. Only
forms that have references themselves are called; others stand in the place of the reference.

Values without a form of their own are those of the empty form, additional members, and members in
front of a tag. What is asked of them is a parameter, `plain`, which is nothing in the end.
-/
namespace SchemaCompiler

def Json.Number.integer? : Json.Number → Option Int
  | .int i => some i
  | .float x => if x.isIntegral then some x.truncate else none

namespace TypeDefinition

def isBetween (low high : Int) : Json → Bool
  | .number n => n.integer?.any fun i => low ≤ i && i ≤ high
  | _ => false

def ScalarType.holds (type : ScalarType) (v : Json) : Bool :=
  match type.bounds? with
  | some (low, high) => isBetween low high v
  | none =>
    match type, v with
    | .boolean, .bool _ => true
    | .string, .string _ => true
    | .timestamp, .string s => Calendar.isTimestamp s
    | .float32, .number _ => true
    | .float64, .number _ => true
    | _, _ => false

namespace Form

variable (plain : Json → Prop) (onRef : String → Json → Prop)

/-- Every member is known by name, or is the tag, or is an additional one where these are allowed. -/
def Covers (required optional : List (String × Form)) (additional : Bool) (tag : Option String)
    (members : List (String × Json)) : Prop :=
  ∀ m ∈ members, m.1 ∈ required.map Prod.fst ∨ m.1 ∈ optional.map Prod.fst ∨ tag = some m.1 ∨
    (additional = true ∧ plain m.2)

mutual
def Conforms : Form → Json → Prop
  | empty, v => plain v
  | ref name, v => onRef name v
  | type t, v => t.holds v = true
  | enum texts, v => ∃ s ∈ texts, v = .string s
  | elements item, v => ∃ items, v = .array items ∧ ∀ w ∈ items, Conforms item w
  | values item, v => ∃ members, v = .object members ∧ ∀ m ∈ members, Conforms item m.2
  | properties required optional additional, v =>
    ∃ members, v = .object members ∧ RequiredConform members required ∧
      OptionalConform members optional ∧ Covers plain required optional additional none members
  | discriminator tag mapping, v =>
    ∃ members value, v = .object members ∧ Assoc.get? tag members = some (.string value) ∧
      (∀ m ∈ members.takeWhile (·.1 != tag), plain m.2) ∧
      MappedConforms tag members value mapping
  | nullable form, v => v = .null ∨ Conforms form v

def RequiredConform (members : List (String × Json)) : List (String × Form) → Prop
  | [] => True
  | (name, form) :: rest =>
    (∃ v, Assoc.get? name members = some v ∧ Conforms form v) ∧ RequiredConform members rest

def OptionalConform (members : List (String × Json)) : List (String × Form) → Prop
  | [] => True
  | (name, form) :: rest =>
    (∀ v, Assoc.get? name members = some v → Conforms form v) ∧ OptionalConform members rest

def MappedConforms (tag : String) (members : List (String × Json)) (value : String) :
    List (String × Form) → Prop
  | [] => False
  | (name, form) :: rest =>
    (name = value ∧ SelectedConforms tag members form) ∨ MappedConforms tag members value rest

def SelectedConforms (tag : String) (members : List (String × Json)) : Form → Prop
  | properties required optional additional =>
    RequiredConform members required ∧ OptionalConform members optional ∧
      Covers plain required optional additional (some tag) members
  | _ => False
end

end Form

namespace Schema

variable (plain : Json → Prop) (definitions : List (String × Form))

/-- A value is of the form of a name. `call` says so for forms that have references. -/
def RefConforms (call : String → Json → Prop) (name : String) (v : Json) : Prop :=
  ∃ form, Assoc.get? name definitions = some form ∧
    if form.hasRef then call name v else form.Conforms plain (fun _ _ => False) v

/-- A value is of the form of a name, which is unfolded in chains of at most so many calls. -/
def CallConforms : Nat → String → Json → Prop
  | 0, _, _ => False
  | calls + 1, name, v =>
    ∃ form, Assoc.get? name definitions = some form ∧
      form.Conforms plain (RefConforms plain definitions (CallConforms calls)) v

def ConformsWithin (schema : Schema) (calls : Nat) (v : Json) : Prop :=
  schema.root.Conforms plain
    (RefConforms plain schema.definitions (CallConforms plain schema.definitions calls)) v

def Conforms (schema : Schema) (v : Json) : Prop :=
  ∃ calls, schema.ConformsWithin (fun _ => True) calls v

end Schema
end TypeDefinition
end SchemaCompiler
