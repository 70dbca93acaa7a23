namespace SymbolicTypes.Decimal

/-- The positive number `mantissa * 2 ^ exponent`. Its lower neighbour is nearer than its upper one
when it is `narrow`, as the smallest number of its exponent is. -/
structure Binary where
  mantissa : Nat
  exponent : Int
  narrow : Bool

def Binary.ofBits (bits : Nat) : Binary :=
  let fraction : Nat := bits % Nat.pow 2 52
  let biased : Nat := bits / Nat.pow 2 52 % Nat.pow 2 11
  if biased = 0 then ⟨fraction, -1074, false⟩
  else ⟨Nat.pow 2 52 + fraction, (biased : Int) - 1075, fraction == 0 && biased != 1⟩

structure Digits where
  digits : Nat
  exponent : Int

namespace Binary

/-- Numerator and denominator of a quarter of the last place, in units of `10 ^ k`. -/
def quarter (b : Binary) (k : Int) : Nat × Nat :=
  (Nat.pow 2 (b.exponent - 2).toNat * Nat.pow 10 (-k).toNat,
    Nat.pow 2 (2 - b.exponent).toNat * Nat.pow 10 k.toNat)

/-- A multiple of `10 ^ k` that rounds to the number: of two the nearer, and of two that are equally
near the even one. -/
def onGrid? (b : Binary) (k : Int) : Option Nat :=
  let (num, den) := b.quarter k
  let value := 4 * b.mantissa * num
  let low := (4 * b.mantissa - if b.narrow then 1 else 2) * num
  let high := (4 * b.mantissa + 2) * num
  let isIn (c : Nat) : Bool :=
    if b.mantissa % 2 = 0 then low ≤ c * den && c * den ≤ high
    else low < c * den && c * den < high
  let below := value / den
  let above := below + 1
  let fromBelow := value - below * den
  let fromAbove := above * den - value
  let nearer :=
    if fromBelow < fromAbove ∨ (fromBelow = fromAbove ∧ below % 2 = 0) then below else above
  if isIn nearer then some nearer
  else if isIn below then some below
  else if isIn above then some above
  else none

def leading (b : Binary) : Int :=
  let (num, den) := b.quarter (-400)
  ((Nat.toDigits 10 (4 * b.mantissa * num / den)).length : Int) - 401

/-- Seventeen digits tell all numbers of 64 bits apart. -/
def shortest (b : Binary) : Digits :=
  let grids := (List.range 17).map fun n : Nat => b.leading - Int.ofNat n
  match grids.findSome? fun k => (b.onGrid? k).map fun c => (⟨c, k⟩ : Digits) with
  | some d => d
  | none => ⟨0, 0⟩

end Binary

def zeros (n : Nat) : List Char := List.replicate n '0'

/-- Writes digits whose first stands at the place `lead`: with a point if that is near the unit, and
else with an exponent. -/
def layout (ds : List Char) (lead : Int) : List Char :=
  if -5 ≤ lead ∧ lead < 0 then '0' :: '.' :: (zeros (-lead - 1).toNat ++ ds)
  else if 0 ≤ lead ∧ lead ≤ 15 then
    let whole := lead.toNat + 1
    let fraction := ds.drop whole
    (ds ++ zeros (whole - ds.length)).take whole
      ++ '.' :: (if fraction = [] then ['0'] else fraction)
  else
    ds.take 1 ++ (if ds.length ≤ 1 then [] else '.' :: ds.drop 1)
      ++ 'e' :: (if lead < 0 then '-' else '+') :: Nat.toDigits 10 lead.natAbs

def trimZeros (ds : List Char) : List Char := (ds.reverse.dropWhile (· = '0')).reverse

def ofFloat (x : Float) : String :=
  let bits := x.toBits.toNat
  let magnitude := bits % Nat.pow 2 63
  let sign := if bits < Nat.pow 2 63 then [] else ['-']
  if magnitude = 0 then String.ofList (sign ++ ['0', '.', '0'])
  else
    let d := (Binary.ofBits magnitude).shortest
    let ds := Nat.toDigits 10 d.digits
    String.ofList (sign ++ layout (trimZeros ds) (d.exponent + ds.length - 1))

end SymbolicTypes.Decimal
