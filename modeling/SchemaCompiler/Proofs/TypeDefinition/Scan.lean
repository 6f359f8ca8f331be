import SchemaCompiler.Proofs.Machine.Steps
import SchemaCompiler.Proofs.TypeDefinition.Conformance

/-!
# Reading by a form

What the parser of a type definition does to a text, told without a program: a scan reads from the
front of a text and leaves the rest, or fails. Every construct of the parser has its scan, so that a
program can be compared with them part by part, and a scan can be compared with the grammar of JSON
without looking at a program.
-/
namespace SchemaCompiler.TypeDefinition

abbrev Scan (α : Type) := StateT (List Char) Option α

namespace Scan

variable {σ α β : Type} (ws : Bool)

theorem bind_apply (x : Scan α) (f : α → Scan β) (cs : List Char) :
    (x >>= f) cs = (x cs).bind fun y => f y.1 y.2 := rfl

@[simp] theorem pure_apply (x : α) (cs : List Char) : (pure x : Scan α) cs = some (x, cs) := rfl

variable (cs : List Char)

@[simp] theorem get_apply : (get : Scan (List Char)) cs = some (cs, cs) := rfl

@[simp] theorem set_apply (ds cs : List Char) : (set ds : Scan Unit) cs = some ((), ds) := rfl

def fails : Scan α := fun _ => none

def check (condition : Bool) : Scan Unit := if condition then pure () else fails

def behind : List Char := if ws then Json.skipBlank cs else cs

def skip : Scan Unit := fun cs => some ((), behind ws cs)

def isAt (token : String) : Scan Bool := fun cs => some (token.toList.isPrefixOf cs, cs)

def advance (token : String) : Scan Unit := fun cs => some ((), cs.drop token.length)

@[simp] theorem fails_apply : (fails : Scan α) cs = none := rfl

@[simp] theorem check_apply (condition : Bool) (cs : List Char) :
    check condition cs = if condition then some ((), cs) else none := by
  cases condition <;> rfl

@[simp] theorem skip_apply :
    skip ws cs = some ((), behind ws cs) := rfl

@[simp] theorem isAt_apply (token : String) (cs : List Char) :
    isAt token cs = some (token.toList.isPrefixOf cs, cs) := rfl

@[simp] theorem advance_apply (token : String) (cs : List Char) :
    advance token cs = some ((), cs.drop token.length) := rfl

def token (t : String) : Scan Unit := do
  skip ws
  check (← isAt t)
  advance t

def opens (routine : Primitive) (cs : List Char) : Bool :=
  match routine with
  | .parseString => cs.head? == some '"'
  | .parseNumber => cs.head?.any fun c => c == '-' || c.isDigit
  | _ => true

def value (routine : Primitive) : Scan Json := fun cs =>
  if opens routine cs then (Json.readNext cs).toOption else none

def scalar (routine : Primitive) : Scan Json := do
  skip ws
  value routine

def text : Scan String := do
  match ← scalar ws .parseString with
  | .string s => return s
  | _ => fails

/-- One round of a loop whose parts have commas between them; it also says whether a comma followed. -/
def round (member : σ → Scan σ) (x : σ) : Scan (σ × Bool) := do
  let y ← member x
  skip ws
  if ← isAt "," then
    advance ","
    return (y, true)
  else return (y, false)

theorem round_apply (member : σ → Scan σ) (x : σ) (cs : List Char) :
    round ws member x cs = (member x cs).bind fun y =>
      if ",".toList.isPrefixOf (behind ws y.2) then some ((y.1, true), (behind ws y.2).drop 1)
      else some ((y.1, false), behind ws y.2) := by
  simp only [round, bind_apply, skip_apply, isAt_apply, Option.bind_some]
  congr 1
  funext y
  split <;> rfl

def repeated (step : σ → Scan (σ × Bool)) (x : σ) : Scan σ := fun cs =>
  Machine.again (fun y => (step y.1 y.2).map fun z => ((z.1.1, z.2), z.1.2)) Machine.roundLimit
    (x, cs)

def separated (member : σ → Scan σ) (x : σ) : Scan σ := repeated (round ws member) x

def listed (closing : String) (member : σ → Scan σ) (x : σ) : Scan σ := do
  skip ws
  if ← isAt closing then return x else separated ws member x

theorem listed_apply (closing : String) (member : σ → Scan σ) (x : σ) (cs : List Char) :
    listed ws closing member x cs =
      if closing.toList.isPrefixOf (behind ws cs) then some (x, behind ws cs)
      else separated ws member x (behind ws cs) := by
  simp only [listed, bind_apply, skip_apply, isAt_apply, Option.bind_some]
  split <;> rfl

def close (required : List String) (members : List (String × Json)) : Scan Unit := do
  token ws "\x7d"
  check (required.all fun name => Assoc.contains name members)

/-- Reads the value of a member whose name is known, and adds the member to those so far. -/
def knownOr (read : Option (Scan Json)) (key : String) (so : List (String × Json) × Bool)
    (otherwise : Scan (List (String × Json) × Bool)) : Scan (List (String × Json) × Bool) :=
  match read with
  | some read => do
    let v ← read
    return (Assoc.insert key v so.1, so.2)
  | none => otherwise

/-- Reads the value of a member whose name is not known: the tag, once, or an additional member. -/
def unknown (additional : Bool) (tag : Option String) (key : String)
    (so : List (String × Json) × Bool) : Scan (List (String × Json) × Bool) :=
  if tag = some key then do
    check !so.2
    let _ ← text ws
    return (so.1, true)
  else if additional then do
    let v ← scalar ws .parseValue
    return (Assoc.insert key v so.1, so.2)
  else fails

def member (known : String → Option (Scan Json)) (additional : Bool)
    (tag : Option String) (so : List (String × Json) × Bool) :
    Scan (List (String × Json) × Bool) := do
  let key ← text ws
  token ws ":"
  knownOr (known key) key so (unknown ws additional tag key so)

variable (tag : String)

/-- One round of the search for a tag: the tag ends it, another member is read over. -/
def seek (so : Option String) : Scan (Option String × Bool) := do
  let key ← text ws
  token ws ":"
  if key = tag then do
    skip ws
    check (← isAt "\"")
    let found ← text ws
    return (some found, false)
  else do
    let _ ← scalar ws .parseValue
    skip ws
    if ← isAt "," then
      advance ","
      return (so, true)
    else return (so, false)

def findTag (tag : String) : Scan String := do
  let start ← get
  skip ws
  let found ← if ← isAt "\x7d" then pure none else repeated (seek ws tag) none
  set start
  match found with
  | some value => return value
  | none => fails

def search : Scan (Option String) := do
  skip ws
  if ← isAt "\x7d" then pure none else repeated (seek ws tag) none

theorem findTag_eq (cs : List Char) :
    findTag ws tag cs = (search ws tag cs).bind fun y => y.1.map fun value => (value, cs) := by
  have hend : ∀ y : Option String × List Char, (do
      set cs
      match y.1 with
      | some value => return value
      | none => fails) y.2 = y.1.map fun value => (value, cs) := by
    rintro ⟨_ | _, _⟩ <;> rfl
  simp only [findTag, search, bind_apply, get_apply, skip_apply, isAt_apply, Option.bind_some]
  split
  · rfl
  · exact congrArg (repeated (seek ws tag) none _).bind (funext hend)

theorem findTag_apply (cs : List Char) :
    findTag ws tag cs = (if "\x7d".toList.isPrefixOf (behind ws cs) then some (none, behind ws cs)
      else repeated (seek ws tag) none (behind ws cs)).bind fun y =>
        y.1.map fun value => (value, cs) := by
  rw [findTag_eq]
  simp only [search, bind_apply, skip_apply, isAt_apply, Option.bind_some]
  split <;> rfl

end Scan

open Scan

def ScalarType.scan (ws : Bool) (type : ScalarType) : Scan Json :=
  match type.bounds? with
  | some (low, high) => do
    let v ← scalar ws .parseNumber
    check (isBetween low high v)
    return v
  | none =>
    match type with
    | .boolean => do
      skip ws
      if ← isAt "true" then
        advance "true"
        return .bool true
      else if ← isAt "false" then
        advance "false"
        return .bool false
      else fails
    | .string => do return .string (← text ws)
    | .timestamp => do
      let s ← text ws
      check (Calendar.isTimestamp s)
      return .string s
    | _ => scalar ws .parseNumber

theorem ScalarType.scan_boolean_apply (ws : Bool) (cs : List Char) :
    ScalarType.scan ws .boolean cs =
      if "true".toList.isPrefixOf (behind ws cs) then
        some (.bool true, (behind ws cs).drop "true".length)
      else if "false".toList.isPrefixOf (behind ws cs) then
        some (.bool false, (behind ws cs).drop "false".length)
      else none := by
  simp only [ScalarType.scan, ScalarType.bounds?, bind_apply, skip_apply, isAt_apply,
    Option.bind_some]
  split
  · rfl
  · simp only [bind_apply, isAt_apply, Option.bind_some]
    split <;> rfl

namespace Form

mutual
def scan (ws : Bool) (onRef : String → Scan Json) : Form → Scan Json
  | empty => scalar ws .parseValue
  | ref name => onRef name
  | type t => t.scan ws
  | enum texts => do
    let s ← text ws
    check (texts.contains s)
    return .string s
  | elements item => do
    token ws "["
    let items ← listed ws "]" (fun items => do
      let v ← scan ws onRef item
      return items ++ [v]) []
    token ws "]"
    return .array items
  | values item => do
    token ws "\x7b"
    let members ← listed ws "\x7d" (fun members => do
      let key ← text ws
      token ws ":"
      let v ← scan ws onRef item
      return Assoc.insert key v members) []
    token ws "\x7d"
    return .object members
  | properties required optional additional => do
    token ws "\x7b"
    if required.isEmpty && optional.isEmpty && !additional then
      token ws "\x7d"
      return .object []
    else
      let (members, _) ← listed ws "\x7d" (member ws
        (fun key => (scanKnown ws onRef key required).or (scanKnown ws onRef key optional))
        additional none) ([], false)
      close ws (required.map Prod.fst) members
      return .object members
  | discriminator tag mapping => do
    skip ws
    token ws "\x7b"
    let value ← findTag ws tag
    scanMapped ws onRef tag value mapping
  | nullable form => do
    skip ws
    if ← isAt "null" then
      advance "null"
      return .null
    else scan ws onRef form

def scanKnown (ws : Bool) (onRef : String → Scan Json) (key : String) :
    List (String × Form) → Option (Scan Json)
  | [] => none
  | (name, form) :: rest => if key = name then some (scan ws onRef form) else scanKnown ws onRef key rest

def scanMapped (ws : Bool) (onRef : String → Scan Json) (tag value : String) :
    List (String × Form) → Scan Json
  | [] => fails
  | (name, form) :: rest =>
    if value = name then scanSelected ws onRef tag value form
    else scanMapped ws onRef tag value rest

def scanSelected (ws : Bool) (onRef : String → Scan Json) (tag value : String) : Form → Scan Json
  | properties required optional additional => do
    let (members, _) ← separated ws (member ws
      (fun key => (scanKnown ws onRef key required).or (scanKnown ws onRef key optional))
      additional (some tag)) ([(tag, .string value)], false)
    close ws (required.map Prod.fst) members
    return .object members
  | _ => fails
end

end Form

namespace Schema

/-- Reads a value of the form of a name. `call` does so for forms that have references. -/
def scanRef (ws : Bool) (definitions : List (String × Form)) (call : String → Scan Json)
    (name : String) : Scan Json :=
  match Assoc.get? name definitions with
  | none => fails
  | some form => if form.hasRef then call name else form.scan ws fun _ => fails

def scanCall (ws : Bool) (definitions : List (String × Form)) : Nat → String → Scan Json
  | 0, _ => fails
  | calls + 1, name =>
    match Assoc.get? name definitions with
    | none => fails
    | some form => form.scan ws (scanRef ws definitions (scanCall ws definitions calls))

/-- Reads a text that is a value of a type definition, in chains of at most so many calls. The first
call is that which reads the text. -/
def scan (ws : Bool) (schema : Schema) : Nat → Scan Json
  | 0 => fails
  | calls + 1 => do
    let v ← schema.root.scan ws
      (scanRef ws schema.definitions (scanCall ws schema.definitions calls))
    skip ws
    check (← get).isEmpty
    return v

end Schema
end SchemaCompiler.TypeDefinition
