import SchemaCompiler.Url.Percent

/-!
# The parts of a URL

What stands behind the scheme is a path with an authority, a path without one or, for schemes such
as `urn`, a text that nothing is relative to.
-/
namespace SchemaCompiler.Url

/-- What stands behind a double slash. -/
structure Authority where
  username : List Char
  password : List Char
  host : List Char
  port : Option Nat
deriving DecidableEq, Repr

/-- What stands behind the scheme. -/
inductive Place where
  | opaquePath (text : List Char)
  | rooted (segments : List (List Char))
  | hosted (authority : Authority) (segments : List (List Char))
deriving DecidableEq, Repr

/-- A URL in parts, each in its encoded form. -/
structure Parts where
  scheme : String
  place : Place
  query : Option (List Char)
  fragment : Option (List Char)
deriving DecidableEq, Repr

/-- Why a text is not a URL. -/
inductive Fault where
  | relative
  | relativeToOpaque
  | emptyHost
  | invalidDomain
  | invalidName
  | invalidIpv4
  | invalidIpv6
  | invalidPort
deriving DecidableEq, Repr

def Fault.message : Fault → String
  | relative => "relative URL without a base"
  | relativeToOpaque => "relative URL with a cannot-be-a-base base"
  | emptyHost => "empty host"
  | invalidDomain => "invalid domain character"
  | invalidName => "invalid international domain name"
  | invalidIpv4 => "invalid IPv4 address"
  | invalidIpv6 => "invalid IPv6 address"
  | invalidPort => "invalid port number"

def defaultPort (scheme : String) : Option Nat :=
  if scheme == "http" || scheme == "ws" then some 80
  else if scheme == "https" || scheme == "wss" then some 443
  else if scheme == "ftp" then some 21
  else none

def isSpecial (scheme : String) : Bool := (defaultPort scheme).isSome || scheme == "file"

def markedText (mark : Char) : Option (List Char) → List Char
  | some cs => mark :: cs
  | none => []

namespace Authority

def userText (a : Authority) : List Char :=
  if a.username.isEmpty && a.password.isEmpty then []
  else a.username ++ (if a.password.isEmpty then [] else ':' :: a.password) ++ ['@']

def text (a : Authority) : List Char :=
  a.userText ++ (a.host ++ markedText ':' (a.port.map (Nat.toDigits 10)))

end Authority

namespace Place

def pathText (segments : List (List Char)) : List Char := segments.flatMap ('/' :: ·)

/-- The text of a place. A path that starts like an authority has a dot in front. -/
def text : Place → List Char
  | opaquePath p => p
  | rooted ([] :: s :: rest) => '/' :: '.' :: pathText ([] :: s :: rest)
  | rooted segments => pathText segments
  | hosted a segments => '/' :: '/' :: a.text ++ pathText segments

def segments : Place → List (List Char)
  | opaquePath _ => []
  | rooted segments => segments
  | hosted _ segments => segments

def withPath (segments : List (List Char)) : Place → Place
  | hosted a _ => hosted a segments
  | _ => rooted segments

end Place

namespace Parts

def text (u : Parts) : List Char :=
  u.scheme.toList ++ ':' :: (u.place.text ++ (markedText '?' u.query ++ markedText '#' u.fragment))

/-- A URL without its fragment. Where a text is the last part, blanks at its end go too. -/
def withoutFragment (u : Parts) : Parts :=
  match u.place, u.query with
  | .opaquePath p, none =>
    { u with place := .opaquePath (p.reverse.dropWhile (· == ' ')).reverse, fragment := none }
  | _, _ => { u with fragment := none }

end Parts
end SchemaCompiler.Url
