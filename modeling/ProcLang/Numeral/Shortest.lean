import ProcLang.Numeral.Binary64

/-!
# Shortest decimal text

A floating-point value is written with the fewest decimal digits that read back as the same value,
and among those with the nearest ones. Sizes from `0.0001` up to `10 ^ 16` are written in
positional form, all others with an exponent.
-/

namespace ProcLang.Numeral

/-- A decimal grid laid over the quarters of a binary step: a decimal number of `10 ^ exponent`
units and a number of quarter steps are compared as multiples of `decimal` and `quarter`. -/
structure Grid where
  decimal : Nat
  quarter : Nat

namespace Grid

/-- The grid of the multiples of `10 ^ exponent` beside quarters of `2 ^ power`. -/
def of (exponent power : Int) : Grid where
  decimal := Nat.pow 10 exponent.toNat * Nat.pow 2 (2 - power).toNat
  quarter := Nat.pow 10 (-exponent).toNat * Nat.pow 2 (power - 2).toNat

end Grid

/-- How far below a value, in quarter steps, the next value's half-way point lies. It is nearer
where the step changes. -/
def quartersBelow (steps : Nat) (power : Int) : Nat :=
  if steps = Nat.pow 2 52 ∧ power > Binary64.minPower then 1 else 2

/-- Whether the decimal number reads back as the value: it lies between the half-way points to the
two neighbours, which count where the number of steps is even. -/
def readsBack (steps : Nat) (power : Int) (grid : Grid) (digits : Nat) : Bool :=
  let here := digits * grid.decimal
  let low := (4 * steps - quartersBelow steps power) * grid.quarter
  let high := (4 * steps + 2) * grid.quarter
  if steps % 2 = 0 then low ≤ here && here ≤ high else low < here && here < high

/-- The decimal number of the grid that reads back as the value. Of the two neighbours of the value
the nearer one is taken, of two equally near ones the even one. -/
def onGrid? (steps : Nat) (power : Int) (grid : Grid) : Option Nat :=
  let value := 4 * steps * grid.quarter
  let below := value / grid.decimal
  let toBelow := value - below * grid.decimal
  let toAbove := (below + 1) * grid.decimal - value
  let nearer :=
    if toBelow < toAbove ∨ (toBelow = toAbove ∧ below % 2 = 0) then [below, below + 1]
    else [below + 1, below]
  nearer.find? (readsBack steps power grid)

/-- The number of decimal digits of a number. -/
def decimalLength (n : Nat) : Nat := (Nat.toDigits 10 n).length

/-- The exponent of the first decimal digit of the positive number `steps * 2 ^ power`. -/
def decimalExponent (steps : Nat) (power : Int) : Int :=
  let num := steps * Nat.pow 2 power.toNat
  let den := Nat.pow 2 (-power).toNat
  if den ≤ num then (decimalLength (num / den) : Int) - 1
  else
    let n := decimalLength (den / num)
    if num * Nat.pow 10 (n - 1) = den then 1 - (n : Int) else -(n : Int)

/-- A decimal number `digits * 10 ^ exponent`. -/
structure Decimal where
  digits : Nat
  exponent : Int
  deriving DecidableEq, Repr

/-- The same number without zeros at the end of its digits. -/
def Decimal.dropZeros : Nat → Decimal → Decimal
  | 0, d => d
  | n + 1, d =>
    if d.digits % 10 = 0 ∧ d.digits ≠ 0 then dropZeros n ⟨d.digits / 10, d.exponent + 1⟩ else d

/-- Seventeen digits always read back, so the search for fewer ones needs no more. -/
def maxDigits : Nat := 17

/-- The shortest decimal number that reads back as the positive number `steps * 2 ^ power`. -/
def shortest (steps : Nat) (power : Int) : Decimal :=
  let top := decimalExponent steps power
  let found := (List.range maxDigits).findSome? fun (more : Nat) =>
    let exponent := top - more
    (onGrid? steps power (Grid.of exponent power)).map fun digits => ⟨digits, exponent⟩
  Decimal.dropZeros maxDigits (found.getD ⟨0, 0⟩)

/-- The exponents of the first digit that are written in positional form. -/
def isPositional (first : Int) : Bool := -4 ≤ first && first < 16

/-- A number of zeros. -/
def zeros (n : Nat) : List Char := List.replicate n '0'

/-- The digits with a point among them, before them or behind them. `first` is the exponent of the
first digit. -/
def positional (digits : List Char) (first : Int) : List Char :=
  if first < 0 then '0' :: '.' :: zeros (-first - 1).toNat ++ digits
  else
    let whole := first.toNat + 1
    if digits.length ≤ whole then digits ++ zeros (whole - digits.length) ++ ['.', '0']
    else digits.take whole ++ '.' :: digits.drop whole

/-- One digit before the point, the others behind it, and an exponent of at least two digits. -/
def scientific (digits : List Char) (first : Int) : List Char :=
  let size := Nat.toDigits 10 first.natAbs
  digits.take 1 ++ (if digits.length ≤ 1 then [] else '.' :: digits.drop 1)
    ++ ['e', if first < 0 then '-' else '+'] ++ zeros (2 - size.length) ++ size

/-- The text of a decimal number. -/
def Decimal.text (d : Decimal) : List Char :=
  let digits := Nat.toDigits 10 d.digits
  let first := d.exponent + digits.length - 1
  if isPositional first then positional digits first else scientific digits first

/-- The shortest text of a floating-point value. -/
def Binary64.text : Binary64 → String
  | finite negative steps power =>
    let size := if steps = 0 then ['0', '.', '0'] else (shortest steps power).text
    String.ofList (if negative then '-' :: size else size)
  | infinite negative => if negative then "-inf" else "inf"

end ProcLang.Numeral
