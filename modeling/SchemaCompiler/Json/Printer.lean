import SchemaCompiler.Json.Value
import SchemaCompiler.Number.Decimal

/-!
# Compact JSON text

Values are written without blanks and with members in order. In strings the quote, the backslash
and the control characters are escaped, the latter by their short form where there is one;
everything else stands as it is.
-/
namespace SchemaCompiler.Json

/-- Doubles are written without a power of ten when the exponent of their first digit lies
between `-5` and `15`. -/
def decimalLayout : Decimal.Layout := ⟨-5, 15⟩

def hexDigit (n : Nat) : Char :=
  if n < 10 then Char.ofNat (n + 48) else Char.ofNat (n + 87)

def escapeChar (c : Char) : List Char :=
  if c = '"' then ['\\', '"']
  else if c = '\\' then ['\\', '\\']
  else if c = '\x08' then ['\\', 'b']
  else if c = '\x0c' then ['\\', 'f']
  else if c = '\n' then ['\\', 'n']
  else if c = '\r' then ['\\', 'r']
  else if c = '\t' then ['\\', 't']
  else if c.toNat < 32 then
    ['\\', 'u', '0', '0', hexDigit (c.toNat / 16), hexDigit (c.toNat % 16)]
  else [c]

def quote (s : String) : String :=
  "\"" ++ String.ofList (s.toList.flatMap escapeChar) ++ "\""

def Number.render : Number → String
  | .int i => toString i
  | .float x => x.render decimalLayout

mutual
def render : Json → String
  | null => "null"
  | bool true => "true"
  | bool false => "false"
  | number n => n.render
  | string s => quote s
  | array items => "[" ++ renderItems items ++ "]"
  | object members => "\x7b" ++ renderMembers members ++ "\x7d"

def renderItems : List Json → String
  | [] => ""
  | [x] => render x
  | x :: y :: rest => render x ++ "," ++ renderItems (y :: rest)

def renderMembers : List (String × Json) → String
  | [] => ""
  | [(k, x)] => quote k ++ ":" ++ render x
  | (k, x) :: m :: rest => quote k ++ ":" ++ render x ++ "," ++ renderMembers (m :: rest)
end

end SchemaCompiler.Json
