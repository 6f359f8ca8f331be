import SchemaCompiler.Pattern.CharSet
import SchemaCompiler.Text.Unicode.Script

/-!
# Named character properties

Patterns name sets of characters by properties: general categories, scripts and binary
properties. Names are compared without case, blanks, dashes and underscores, and a leading `is`
does not count.
-/
namespace SchemaCompiler.Pattern
open Text.Unicode

def significant (cs : List Char) : List Char :=
  (cs.filter fun c => c != ' ' && c != '_' && c != '-' && c.toNat < 128).map Char.toLower

def normalName (name : String) : String :=
  match name.toList with
  | a :: b :: rest =>
    if (a == 'i' || a == 'I') && (b == 's' || b == 'S') then
      let short := significant rest
      if short == ['c'] then "isc" else String.ofList short
    else String.ofList (significant (a :: b :: rest))
  | cs => String.ofList (significant cs)

def lookUp {α : Type} (tables : List (List String × α)) (name : String) : Option α :=
  (tables.find? fun e => e.1.any fun n => normalName n == name).map Prod.snd

def category? (name : String) : Option CharSet :=
  if name == "any" then some .any
  else if name == "ascii" then some (.range 0 127)
  else if name == "assigned" then some (.table Category.assigned)
  else if name == "cn" || name == "unassigned" then some (.complement (.table Category.assigned))
  else if name == "c" || name == "other" then
    some (.union (.complement (.table Category.assigned))
      (.table (Category.members ["Cc", "Cf", "Cs", "Co"])))
  else if name == "digit" then some .digit
  else if name == "punct" then
    some (.table (Category.members ["Pc", "Pd", "Ps", "Pe", "Pi", "Pf", "Po"]))
  else if name == "cntrl" then some (.table (Category.members ["Cc"]))
  else if name == "combiningmark" then some (.table (Category.members ["Mn", "Mc", "Me"]))
  else
    ((lookUp Category.table name).or ((lookUp Category.groups name).map Category.members)).map .table

def script? (name : String) : Option CharSet := (lookUp Script.table name).map .table

/-- A script with the characters used together with it, by its normal name. -/
def extendedScript? (name : String) : Option CharSet :=
  (lookUp (Script.table.map fun e => (e.1, Script.extended e.1 e.2)) name).map .table

def binary? (name : String) : Option CharSet :=
  if name == "alphabetic" || name == "alpha" then some (.table Property.alphabetic)
  else if name == "whitespace" || name == "wspace" || name == "space" then some .space
  else if name == "graphemeextend" || name == "grext" then some (.table Property.graphemeExtend)
  else if name == "joincontrol" || name == "joinc" then some (.table Property.joinControl)
  else
    ((lookUp Property.caseTable name).or (lookUp Property.table name)).map .table

def named? (name : String) : Option CharSet :=
  let name := normalName name
  let binary := if name == "cf" || name == "sc" || name == "lc" then none else binary? name
  binary.or ((category? name).or (script? name))

def valued? (property value : String) : Option CharSet :=
  let property := normalName property
  let value := normalName value
  if property == "generalcategory" || property == "gc" then category? value
  else if property == "script" || property == "sc" then script? value
  else if property == "scriptextensions" || property == "scx" then extendedScript? value
  else none

end SchemaCompiler.Pattern
