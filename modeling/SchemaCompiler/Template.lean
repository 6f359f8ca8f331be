import SchemaCompiler.Json.Printer
import SchemaCompiler.Program.Expr

/-!
# Message templates

A template is a text with placeholders in braces. It is read once, when its keyword is defined,
and rendered for each error into an expression that joins the texts and the parameters.
-/
namespace SchemaCompiler

/-- A part of a template. -/
inductive Template.Part where
  | text (text : String)
  | param (name : String)
deriving DecidableEq, Repr

/-- A message with placeholders. -/
structure Template where
  parts : List Template.Part
deriving DecidableEq, Repr

namespace Template

/-- Why a text is not a template. -/
inductive Fault where
  | unclosed
  | badPlaceholder (name : String)
  | unmatched
deriving DecidableEq, Repr

def Fault.message (source : String) : Fault → String
  | unclosed => "unclosed placeholder in " ++ Text.quoted source
  | badPlaceholder name =>
    "bad placeholder \x7b" ++ name ++ "\x7d in " ++ Text.quoted source
  | unmatched => "unmatched '\x7d' in " ++ Text.quoted source

def isParamChar (c : Char) : Bool := c.isAlphanum || c == '_'

def textPart (text : List Char) : List Part :=
  if text.isEmpty then [] else [.text (String.ofList text)]

mutual
/-- Reads on in a text; `held` is what has been read of it. A closing brace is a fault only behind
the last placeholder. -/
def parseText (held : List Char) : List Char → Except Fault (List Part)
  | [] => if held.contains '\x7d' then .error .unmatched else .ok (textPart held)
  | c :: rest =>
    if c = '\x7b' then do
      let parts ← parseParam [] rest
      return textPart held ++ parts
    else parseText (held ++ [c]) rest

def parseParam (held : List Char) : List Char → Except Fault (List Part)
  | [] => .error .unclosed
  | c :: rest =>
    if c = '\x7d' then
      if held.isEmpty || !held.all isParamChar then
        .error (.badPlaceholder (String.ofList held))
      else do
        let parts ← parseText [] rest
        return .param (String.ofList held) :: parts
    else parseParam (held ++ [c]) rest
end

def parse (source : String) : Except Fault Template := (parseText [] source.toList).map Template.mk

def params (t : Template) : List String :=
  t.parts.filterMap fun
    | .param name => some name
    | .text _ => none

/-- What stands for a part: texts and literal parameters as text, other parameters as they are. A
parameter that is not given stands for nothing. -/
def piece (params : List (String × Expr)) : Part → Expr
  | .text text => .str text
  | .param name =>
    match Assoc.get? name params with
    | some (.lit (.string s)) => .str s
    | some (.lit v) => .str v.render
    | some e => e
    | none => .str ""

def render (t : Template) (params : List (String × Expr)) : Expr :=
  t.parts.foldl (fun message part => message.plus (piece params part)) (.str "")

end Template
end SchemaCompiler
