import SchemaCompiler.Url.Host

/-!
# Reading URLs

A text is read as a URL, on its own or relative to a base. Blanks around it and line breaks inside
it do not count.
-/
namespace SchemaCompiler

namespace Url

def trimmed (text : String) : List Char :=
  let isEdge (c : Char) : Bool := c.toNat ≤ 0x20
  let cs := ((text.toList.dropWhile isEdge).reverse.dropWhile isEdge).reverse
  cs.filter fun c => c != '\t' && c != '\n' && c != '\r'

def isSchemeChar (c : Char) : Bool := c.isAlphanum || c == '+' || c == '-' || c == '.'

def splitScheme (cs : List Char) : Option (String × List Char) :=
  match cs with
  | c :: _ =>
    if c.isAlpha then
      match cs.dropWhile isSchemeChar with
      | ':' :: rest => some (String.ofList ((cs.takeWhile isSchemeChar).map Char.toLower), rest)
      | _ => none
    else none
  | [] => none

/-- What stands in front of the first character of a kind, and the rest with it. -/
def upTo (stop : Char → Bool) (cs : List Char) : List Char × List Char :=
  (cs.takeWhile fun c => !stop c, cs.dropWhile fun c => !stop c)

def splitFragment (cs : List Char) : List Char × Option (List Char) :=
  match upTo (· == '#') cs with
  | (front, _ :: fragment) => (front, some (encode inFragmentSet fragment))
  | (front, []) => (front, none)

def splitQuery (scheme : String) (cs : List Char) :
    List Char × Option (List Char) × Option (List Char) :=
  let (front, fragment) := splitFragment cs
  match upTo (· == '?') front with
  | (path, _ :: query) => (path, some (encode (inQuerySet (isSpecial scheme)) query), fragment)
  | (path, []) => (path, none, fragment)

def isSingleDot (segment : List Char) : Bool :=
  let s := segment.map Char.toLower
  s == ['.'] || s == ['%', '2', 'e']

def isDoubleDot (segment : List Char) : Bool :=
  let s := segment.map Char.toLower
  s == ['.', '.'] || s == ['.', '%', '2', 'e'] || s == ['%', '2', 'e', '.']
    || s == ['%', '2', 'e', '%', '2', 'e']

/-- Follows written segments from those in force. A dot segment at the end leaves an empty
segment. -/
def addSegments (parts : List (List Char)) : List (List Char) → List (List Char)
  | [] => parts
  | [segment] =>
    if isDoubleDot segment then parts.dropLast ++ [[]]
    else if isSingleDot segment then parts ++ [[]]
    else parts ++ [encode inPathSet segment]
  | segment :: rest =>
    if isDoubleDot segment then addSegments parts.dropLast rest
    else if isSingleDot segment then addSegments parts rest
    else addSegments (parts ++ [encode inPathSet segment]) rest

/-- The written segments of a path. In special schemes a backslash divides them too. -/
def writtenSegments (scheme : String) (cs : List Char) : List (List Char) :=
  splitOn '/' (if isSpecial scheme then cs.map fun c => if c = '\\' then '/' else c else cs)

def rootedPath (scheme : String) (cs : List Char) : List (List Char) :=
  addSegments [] (writtenSegments scheme cs)

def isSlash (scheme : String) (c : Char) : Bool := c == '/' || (c == '\\' && isSpecial scheme)

def readPort (scheme : String) (cs : List Char) : Except Fault (Option Nat) :=
  if cs.all Char.isDigit then
    let n := cs.foldl (fun n c => n * 10 + (c.toNat - 48)) 0
    if n > 65535 then .error .invalidPort
    else if cs.isEmpty || defaultPort scheme == some n then .ok none
    else .ok (some n)
  else .error .invalidPort

def splitUser (cs : List Char) : Option (List Char) × List Char :=
  match upTo (· == '@') cs.reverse with
  | (host, _ :: user) => (some user.reverse, host.reverse)
  | (_, []) => (none, cs)

/-- The host and the port of an authority; a colon inside brackets does not divide them. -/
def splitPort (inBrackets : Bool) : List Char → List Char × Option (List Char)
  | [] => ([], none)
  | c :: rest =>
    if c = ':' ∧ inBrackets = false then ([], some rest)
    else
      let inside := c = '[' || (c != ']' && inBrackets)
      let (host, port) := splitPort inside rest
      (c :: host, port)

def readHost (scheme : String) (cs : List Char) : Except Fault (List Char) :=
  if isSpecial scheme then specialHost cs else opaqueHost cs

def fileHost (cs : List Char) : Except Fault (List Char) :=
  if cs.isEmpty then .ok []
  else (specialHost cs).map fun host => if host = "localhost".toList then [] else host

def readAuthority (scheme : String) (cs : List Char) : Except Fault Authority := do
  if scheme == "file" then
    return ⟨[], [], ← fileHost cs, none⟩
  else
    let (user, place) := splitUser cs
    let (name, secret) := upTo (· == ':') (user.getD [])
    let (host, port) := splitPort false place
    if host.isEmpty && (port.isSome || user.isSome || isSpecial scheme) then .error .emptyHost
    else
      let host ← readHost scheme host
      let port ← readPort scheme (port.getD [])
      return ⟨encode inUserSet name, encode inUserSet (secret.drop 1), host, port⟩

def pathBehind (scheme : String) : List Char → List (List Char)
  | [] => if isSpecial scheme then [[]] else []
  | _ :: path => rootedPath scheme path

def afterSlashes (scheme : String) (cs : List Char) : Except Fault Parts := do
  let (written, rest) := upTo (fun c => isSlash scheme c || c == '?' || c == '#') cs
  let (path, query, fragment) := splitQuery scheme rest
  let authority ← readAuthority scheme written
  return ⟨scheme, .hosted authority (pathBehind scheme path), query, fragment⟩

def countSlashes (cs : List Char) : Nat × List Char :=
  let isDivider (c : Char) : Bool := c == '/' || c == '\\'
  ((cs.takeWhile isDivider).length, cs.dropWhile isDivider)

def relativeTo (base : Parts) (cs : List Char) : Except Fault Parts :=
  match cs with
  | [] => .ok base.withoutFragment
  | '#' :: _ => .ok { base with fragment := (splitFragment cs).2 }
  | '?' :: _ =>
    let (_, query, fragment) := splitQuery base.scheme cs
    .ok { base with query, fragment }
  | c :: rest =>
    if c = '/' ∨ c = '\\' then
      let (count, after) := countSlashes cs
      if count ≥ 2 then
        afterSlashes base.scheme (if ['/', '/'].isPrefixOf cs then cs.drop 2 else after)
      else
        let (path, query, fragment) := splitQuery base.scheme rest
        .ok { base with place := base.place.withPath (rootedPath base.scheme path), query, fragment }
    else
      let (path, query, fragment) := splitQuery base.scheme cs
      let segments :=
        addSegments base.place.segments.dropLast (writtenSegments base.scheme path)
      .ok { base with place := base.place.withPath segments, query, fragment }

def afterScheme (scheme : String) (cs : List Char) : Except Fault Parts :=
  let (count, after) := countSlashes cs
  if scheme == "file" then
    if count ≥ 2 then afterSlashes scheme (cs.drop 2)
    else
      let (path, query, fragment) := splitQuery scheme (cs.drop count)
      .ok ⟨scheme, .hosted ⟨[], [], [], none⟩ (rootedPath scheme path), query, fragment⟩
  else if isSpecial scheme then afterSlashes scheme after
  else
    match cs with
    | '/' :: '/' :: rest => afterSlashes scheme rest
    | '/' :: rest =>
      let (path, query, fragment) := splitQuery scheme rest
      .ok ⟨scheme, .rooted (rootedPath scheme path), query, fragment⟩
    | cs =>
      let (path, query, fragment) := splitQuery scheme cs
      .ok ⟨scheme, .opaquePath (encode isControl path), query, fragment⟩

def isRelative (base : Parts) (scheme : String) (cs : List Char) : Bool :=
  isSpecial scheme && base.scheme == scheme && (countSlashes cs).1 < 2

def readFrom (base : Option Parts) (text : String) : Except Fault Parts :=
  let cs := trimmed text
  match splitScheme cs, base with
  | some (scheme, rest), none => afterScheme scheme rest
  | some (scheme, rest), some b =>
    if isRelative b scheme rest then relativeTo b rest else afterScheme scheme rest
  | none, none => .error .relative
  | none, some b =>
    match b.place, cs with
    | _, '#' :: _ => .ok { b with fragment := (splitFragment cs).2 }
    | .opaquePath _, _ => .error .relativeToOpaque
    | _, _ => relativeTo b cs

/-- Parts that come from reading. -/
inductive Parts.IsRead : Parts → Prop
  | own {text : String} {u : Parts} (h : readFrom none text = .ok u) : IsRead u
  | joined {base u : Parts} {text : String} (hbase : IsRead base)
      (h : readFrom (some base) text = .ok u) : IsRead u
  | withoutFragment {u : Parts} (h : IsRead u) : IsRead u.withoutFragment

end Url

/-- A URL. Nothing is a URL but what has been read as one. -/
structure Url where
  parts : Url.Parts
  isRead : parts.IsRead
deriving DecidableEq, Repr

namespace Url

def read (text : String) : Except Fault Url :=
  match h : readFrom none text with
  | .ok parts => .ok ⟨parts, .own h⟩
  | .error fault => .error fault

def join (base : Url) (text : String) : Except Fault Url :=
  match h : readFrom (some base.parts) text with
  | .ok parts => .ok ⟨parts, .joined base.isRead h⟩
  | .error fault => .error fault

def toText (url : Url) : String := String.ofList url.parts.text

def fragment (url : Url) : Option String := url.parts.fragment.map String.ofList

def withoutFragment (url : Url) : Url := ⟨url.parts.withoutFragment, .withoutFragment url.isRead⟩

end Url
end SchemaCompiler
