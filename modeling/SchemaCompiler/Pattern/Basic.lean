import SchemaCompiler.Pattern.CharSet

/-!
# Patterns

Regular expressions with assertions about the place between two characters. A pattern is matched
by its partial derivatives: what can still be asked of the text after a character has been
consumed. A search keeps all of them side by side, so that its time grows with the text and not
with the choices inside the pattern.
-/
namespace SchemaCompiler

/-- A place in a text: the character in front of it and the one behind it, if there are any. -/
structure Pattern.Place where
  before : Option Char
  after : Option Char
deriving DecidableEq, Repr

/-- A condition on a place. Words are those of all scripts, or of ASCII only. -/
inductive Pattern.Assertion where
  | start
  | stop
  | lineStart
  | lineStop
  | lineStartBoth
  | lineStopBoth
  | wordEdge (ascii : Bool)
  | noWordEdge (ascii : Bool)
  | wordStart (ascii : Bool)
  | wordStop (ascii : Bool)
  | wordStartHalf (ascii : Bool)
  | wordStopHalf (ascii : Bool)
deriving DecidableEq, Repr

/-- A pattern. A repetition has a least count and, if bounded, a greatest. -/
inductive Pattern where
  | empty
  | set (chars : Pattern.CharSet)
  | assert (assertion : Pattern.Assertion)
  | seq (first second : Pattern)
  | alt (left right : Pattern)
  | rep (body : Pattern) (least : Nat) (most : Option Nat)
deriving DecidableEq, Repr

namespace Pattern

def isWord (ascii : Bool) : Option Char → Bool
  | some c => CharSet.isWordPoint c.toNat && (!ascii || c.toNat < 128)
  | none => false

def Assertion.holds (place : Place) : Assertion → Bool
  | start => place.before.isNone
  | stop => place.after.isNone
  | lineStart => place.before.isNone || place.before == some '\n'
  | lineStop => place.after.isNone || place.after == some '\n'
  | lineStartBoth =>
    place.before.isNone || place.before == some '\n'
      || (place.before == some '\r' && place.after != some '\n')
  | lineStopBoth =>
    place.after.isNone || place.after == some '\r'
      || (place.after == some '\n' && place.before != some '\r')
  | wordEdge ascii => isWord ascii place.before != isWord ascii place.after
  | noWordEdge ascii => isWord ascii place.before == isWord ascii place.after
  | wordStart ascii => !isWord ascii place.before && isWord ascii place.after
  | wordStop ascii => isWord ascii place.before && !isWord ascii place.after
  | wordStartHalf ascii => !isWord ascii place.before
  | wordStopHalf ascii => !isWord ascii place.after

def nullable (place : Place) : Pattern → Bool
  | empty => true
  | set _ => false
  | assert a => a.holds place
  | seq p q => nullable place p && nullable place q
  | alt p q => nullable place p || nullable place q
  | rep p least _ => least == 0 || nullable place p

def andThen : Pattern → Pattern → Pattern
  | empty, q => q
  | p, q => seq p q

def times (p : Pattern) (least : Nat) : Option Nat → Pattern
  | some 0 => empty
  | most => rep p least most

/-- What can remain to be matched after a character has been consumed behind `before`. In a
repetition, rounds that match nothing at this place count toward the least number. -/
def steps (before : Option Char) (c : Char) : Pattern → List Pattern
  | empty => []
  | set chars => if chars.contains c.toNat then [empty] else []
  | assert _ => []
  | seq p q =>
    (steps before c p).map (·.andThen q)
      ++ (if nullable ⟨before, some c⟩ p then steps before c q else [])
  | alt p q => steps before c p ++ steps before c q
  | rep p least most =>
    if most == some 0 then []
    else
      let left := if nullable ⟨before, some c⟩ p then 0 else least - 1
      (steps before c p).map (·.andThen (times p left (most.map (· - 1))))

def distinct : List Pattern → List Pattern
  | [] => []
  | p :: ps => if ps.contains p then distinct ps else p :: distinct ps

/-- Whether a match that is under way, or one that begins here or later, comes to its end. -/
def search (p : Pattern) (threads : List Pattern) (before : Option Char) : List Char → Bool
  | [] => (p :: threads).any fun q => nullable ⟨before, none⟩ q
  | c :: rest =>
    (p :: threads).any (fun q => nullable ⟨before, some c⟩ q)
      || search p (distinct ((p :: threads).flatMap fun q => steps before c q)) (some c) rest

def isMatch (p : Pattern) (text : String) : Bool := search p [] none text.toList

/-- A measure of how much a compiled pattern takes; repetitions count for each of their rounds. -/
def weight : Pattern → Nat
  | empty => 1
  | set chars => chars.weight
  | assert _ => 1
  | seq p q => p.weight + q.weight
  | alt p q => p.weight + q.weight + 1
  | rep p least most => p.weight * (max least (most.getD (least + 1))) + 1

end Pattern
end SchemaCompiler
