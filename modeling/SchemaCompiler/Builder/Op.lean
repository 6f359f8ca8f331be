import SchemaCompiler.Builder.Basic
import SchemaCompiler.Program.Fresh

/-!
# Operations of the code builder

The operations as data, so that a whole history of a builder can be run and reasoned about. A
drafting is a builder together with the names it has given.
-/
namespace SchemaCompiler

/-- A builder and the names given so far. -/
structure Drafting where
  names : Counters
  builder : Builder

namespace Drafting

def empty : Drafting := ⟨.empty, .empty⟩

def fresh (stem : String) (d : Drafting) : Except Misuse (Name × Drafting) :=
  match LocalStem.ofString stem (d.names.count stem) with
  | .error misuse => .error misuse
  | .ok stem =>
    let (name, names) := d.names.next stem.toStem
    .ok (name, { d with names := names })

end Drafting

namespace Builder

/-- An operation of a builder. Those that bring a name into being take the stem of the name. -/
inductive Op where
  | name (stem : String)
  | declare (stem : String) (value : Option Expr) (constant : Bool)
  | assign (name : Name) (value : Expr)
  | addAssign (name : Name) (value : Expr)
  | setIndex (target : Name) (key value : Expr)
  | push (target : Name) (value : Expr)
  | code (value : Expr)
  | leave
  | return (value : Expr)
  | throw (value : Expr)
  | addError (record : Expr)
  | resetErrors (count : Expr)
  | startIf (condition : Expr)
  | elseIf (condition : Expr)
  | otherwise
  | forRange (stem : String) (start stop : Expr)
  | forKeys (stem : String) (object : Expr)
  | forEach (stem : String) (iterable : Expr)
  | loop
  | startFunction (name : Name) (params : List Name) (isAsync : Bool)
  | startTry
  | catchAs (stem : String)
  | closing
  | close (kind : BlockKind)
  | startBlock
  | endBlock (expected : Option Nat)

namespace Op

def build (d : Drafting) (b : Except Misuse Builder) : Except Misuse (Option Name × Drafting) :=
  b.map fun b => (none, { d with builder := b })

def naming (stem : String) (d : Drafting) (step : Name → Builder → Except Misuse Builder) :
    Except Misuse (Option Name × Drafting) := do
  let (fresh, d) ← d.fresh stem
  let b ← step fresh d.builder
  return (some fresh, { d with builder := b })

/-- Carries an operation out; gives the name it brought into being, if any. -/
def step (d : Drafting) : Op → Except Misuse (Option Name × Drafting)
  | name stem => naming stem d fun _ b => .ok b
  | declare stem value constant =>
    naming stem d fun n b => .ok (b.emit (.declare n value constant))
  | assign n value => build d (.ok (d.builder.emit (.assign n value)))
  | addAssign n value => build d (.ok (d.builder.emit (.assign n (.plus (.var n) value))))
  | setIndex target key value => build d (.ok (d.builder.emit (.setIndex target key value)))
  | push target value => build d (.ok (d.builder.emit (.push target value)))
  | code value => build d (.ok (d.builder.emit (.expr value)))
  | leave => build d (.ok (d.builder.emit .leave))
  | .return value => build d (.ok (d.builder.emit (.return value)))
  | throw value => build d (.ok (d.builder.emit (.throw value)))
  | addError record => build d (.ok (d.builder.emit (.addError record)))
  | resetErrors count => build d (.ok (d.builder.emit (.resetErrors count)))
  | startIf condition => build d (.ok (d.builder.startIf condition))
  | elseIf condition => build d (d.builder.elseIf condition)
  | otherwise => build d d.builder.otherwise
  | forRange stem start stop =>
    naming stem d fun n b => .ok (b.startLoop (.range n start stop))
  | forKeys stem object => naming stem d fun n b => .ok (b.startLoop (.keys n object))
  | forEach stem iterable => naming stem d fun n b => .ok (b.startLoop (.each n iterable))
  | loop => build d (.ok (d.builder.startLoop .forever))
  | startFunction n params isAsync => build d (d.builder.startFunction n params isAsync)
  | startTry => build d (.ok d.builder.startTry)
  | catchAs stem => naming stem d fun n b => b.catchAs n
  | closing => build d d.builder.closing
  | close kind => build d (d.builder.close kind)
  | startBlock => build d (.ok d.builder.startBlock)
  | endBlock expected => build d (d.builder.endBlock expected)

def run : List Op → Drafting → Except Misuse Drafting
  | [], d => .ok d
  | op :: rest, d => do
    let (_, d) ← op.step d
    run rest d

end Op
end Builder
end SchemaCompiler
