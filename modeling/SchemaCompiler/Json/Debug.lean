import SchemaCompiler.Json.Printer
import SchemaCompiler.Text.Quoted

/-!
# Tagged text of JSON values

A notation of values for reports: every value carries the name of its kind, and strings are
quoted so that they stay on one line.
-/
namespace SchemaCompiler.Json

mutual
def tagged : Json → String
  | null => "Null"
  | bool b => "Bool(" ++ (if b then "true" else "false") ++ ")"
  | number n => "Number(" ++ n.render ++ ")"
  | string s => "String(" ++ Text.quoted s ++ ")"
  | array items => "Array [" ++ taggedItems items ++ "]"
  | object members => "Object \x7b" ++ taggedMembers members ++ "\x7d"

def taggedItems : List Json → String
  | [] => ""
  | [x] => tagged x
  | x :: y :: rest => tagged x ++ ", " ++ taggedItems (y :: rest)

def taggedMembers : List (String × Json) → String
  | [] => ""
  | [(k, x)] => Text.quoted k ++ ": " ++ tagged x
  | (k, x) :: m :: rest => Text.quoted k ++ ": " ++ tagged x ++ ", " ++ taggedMembers (m :: rest)
end

end SchemaCompiler.Json
