import SchemaCompiler.Text.Unicode.Ranges

/-!
# Case folding

Two characters are equal up to case when they fold to the same character. The table lists runs of
characters that fold by the same distance. It is a text as the tables of properties are, with three
numbers for each run; the third one is the distance, behind a tilde where it is negative.
-/
namespace SchemaCompiler.Text.Unicode.Folding

/-- Characters `first`, `first + step`, up to `last` that fold to the character `shift` away. -/
structure Run where
  first : Nat
  last : Nat
  step : Nat
  shift : Int

/-- Reads a table; `last` is the last character before the run being read, `step` and `sign` are what
its marks say, `numbers` has the numbers of it that are known, and `number` what has been read of a
number. -/
def parse (last step : Nat) (sign : Int) (numbers : List Nat) (number : Nat) : List Char → List Run
  | [] => []
  | '/' :: rest => parse last 2 sign numbers number rest
  | '~' :: rest => parse last step (-1) numbers number rest
  | c :: rest =>
    let digit := Ranges.digitValue c
    if digit ≥ 48 then parse last step sign numbers (number * 16 + (digit - 48)) rest
    else
      let n := number * 48 + digit
      match numbers with
      | [start, count] =>
        let first := last + start
        ⟨first, first + step * count, step, sign * n⟩ :: parse (first + step * count) 1 1 [] 0 rest
      | _ => parse last step sign (numbers ++ [n]) 0 rest

def table : List Run := parse 0 1 1 [] 0 (String.join [
  "nHPWnh0nm7BMW26W/YN1/421/371/3M120~oP/12120~rS20qI/11120qE10121qD10130nV10qA10qB10120qD10qF20q",
  "J10qH10140qJ10qL20qM/12120qQ10120qQ30120qQ10121qP/11120qR101401802101202101202/181/381302/1112",
  "0~o110~n8/1J120~oY/28180-mh10120~pJ10-me30120~q310nL10nN/141r70oK/h1140190oK70c22b20nG21nF2GW2",
  "8WN01D0810~U10~P40~F10~M/2B120~n610~n030~nC10~nG20120~710132~oY1FnW1VW/n1G1/AQ120F/161/3l13bn0",
  "pyAbvtG20vtG60vtGnmh5~8ozJ0~unU10~unT10~unK11~unI10~unJ10~unC10~uma10oz-Z8g~p-W32~p-W/sXnQ170~",
  "nA30~v-V/2l1A7~895~8B7~897~895~8/C3~897~8P7~897~897~891~811~nQ10~920~vrLA3~nc10~9C1~811~o4D1~8",
  "11~oG10~7C1~oW11~oU10~9sA0~vyT40~w-V10~wy670SkFGK01nn3PQosHln0n10120~z+d10~q+M10~z+N/32120~-mS",
  "10~z+j10~-mV10~-mU20130191~-nF/1n11/911501/ouskM1/KD1/oe61/4U1/B1120~o-m4/14150120~ptme/311/49",
  "120~ptnK10~ptnV10~ptnR10~ptnH10~ptnK20~ptmI10~ptmg10~ptmL10npG/17120~n010~ptnJ10~o-n8/111701/6",
  "11T01noRnV~povWnxyYPWnvMdeofZepDAd2Ed26d21doqhn2nGp+UVWnyu1VWou-1XY"]).toList

def Run.covers (r : Run) (n : Nat) : Bool :=
  r.first ≤ n && n ≤ r.last && (n - r.first) % r.step == 0

def fold (n : Nat) : Nat :=
  match table.find? (·.covers n) with
  | some r => ((n : Int) + r.shift).toNat
  | none => n

def Run.preimage (r : Run) (n : Nat) : List Nat :=
  let source := (n : Int) - r.shift
  if 0 ≤ source ∧ r.covers source.toNat then [source.toNat] else []

def orbit (n : Nat) : List Nat :=
  let folded := fold n
  folded :: table.flatMap (·.preimage folded)

end SchemaCompiler.Text.Unicode.Folding
