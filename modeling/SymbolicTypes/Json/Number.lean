import SymbolicTypes.Decimal
import SymbolicTypes.Json.Basic

namespace SymbolicTypes.Json.Number

/-- Takes digits onto a number as long as it stays below `2 ^ 64`, and gives back the others. -/
def absorb (n : Nat) : List Char → Nat × List Char
  | [] => (n, [])
  | d :: ds =>
    let next := 10 * n + (d.toNat - '0'.toNat)
    if next < Nat.pow 2 64 then absorb next ds else (n, d :: ds)

def shift : Nat → Float → Int → Option Float
  | 0, x, _ => some x
  | n + 1, x, e =>
    if e.natAbs ≤ 308 then
      if 0 ≤ e then
        let y := x * Float.ofScientific 1 false e.toNat
        if y.isInf then none else some y
      else some (x / Float.ofScientific 1 false e.natAbs)
    else if x == 0.0 then some x
    else if 0 ≤ e then none
    else shift n (x / Float.ofScientific 1 false 308) (e + 308)

/-- The number in 64 bits, its digits beyond the precision left out; none if it is too large. -/
def toFloat? (n : Number) : Option Float :=
  let (significand, spare) := absorb 0 n.whole
  let (significand, dropped) := absorb significand n.fraction
  let places : Int := (spare.length : Int) - (n.fraction.length - dropped.length : Nat)
  let power := n.exponent.foldl (fun e c => 10 * e + (c.toNat - '0'.toNat)) 0
  let magnitude : Option Float :=
    if power < Nat.pow 2 31 then
      let e := if n.exponentNegative then places - power else places + power
      shift (e.natAbs / 308 + 1) (Float.ofNat significand) e
    else if significand ≠ 0 ∧ !n.exponentNegative then none
    else some 0.0
  magnitude.map fun x => if n.negative then -x else x

/-- A whole number that 64 bits hold, with a sign or without. There is no whole `-0`. -/
def toInt? (n : Number) : Option Int :=
  if n.fraction ≠ [] ∨ n.exponent ≠ [] then none
  else
    let (m, spare) := absorb 0 n.whole
    if spare ≠ [] then none
    else if n.negative then if 0 < m ∧ m ≤ Nat.pow 2 63 then some (-(m : Int)) else none
    else some m

def describe (n : Number) : Option String :=
  match n.toInt? with
  | some i => some ("integer \x60" ++ toString i ++ "\x60")
  | none => n.toFloat?.map fun x => "floating point \x60" ++ Decimal.ofFloat x ++ "\x60"

end SymbolicTypes.Json.Number
