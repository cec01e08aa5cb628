/-!
# Binary floating point

The values of the 64-bit binary format, held exactly: a sign with a whole number of steps
`2 ^ power`, or an infinity. A fraction of natural numbers is rounded to the nearest value, ties to
the even one.
-/

namespace ProcLang.Numeral

/-- A value of the 64-bit binary format. A finite one is `± steps * 2 ^ power`. -/
inductive Binary64 where
  | finite (negative : Bool) (steps : Nat) (power : Int)
  | infinite (negative : Bool)
  deriving DecidableEq, Repr

namespace Binary64

/-- The power of the finest step. -/
def minPower : Int := -1074

/-- The power of the coarsest step. -/
def maxPower : Int := 971

/-- The whole number nearest to a fraction, ties to the even one. -/
def roundToEven (num den : Nat) : Nat :=
  let below := num / den
  let twice := 2 * (num % den)
  if twice < den ∨ (twice = den ∧ below % 2 = 0) then below else below + 1

/-- The fraction `num / den` counted in steps `2 ^ power`, rounded. -/
def stepsAt (num den : Nat) (power : Int) : Nat :=
  roundToEven (num * Nat.pow 2 (-power).toNat) (den * Nat.pow 2 power.toNat)

/-- The power of the step that leaves 53 binary digits to the positive fraction `num / den`, or the
finest one. -/
def stepPower (num den : Nat) : Int :=
  let guess : Int := (num.log2 : Int) - den.log2 - 53
  let wide := num * Nat.pow 2 (-guess).toNat ≥ den * Nat.pow 2 (guess.toNat + 53)
  max minPower (if wide then guess + 1 else guess)

/-- The value nearest to the fraction `num / den` with the given sign. -/
def ofFraction (negative : Bool) (num den : Nat) : Binary64 :=
  if num = 0 then finite negative 0 minPower
  else
    let power := stepPower num den
    let steps := stepsAt num den power
    if steps = Nat.pow 2 53 then
      if power + 1 > maxPower then infinite negative else finite negative (Nat.pow 2 52) (power + 1)
    else if power > maxPower then infinite negative
    else finite negative steps power

/-- Decimal exponents beyond this size give an infinity or zero whatever the digits. -/
def decimalReach : Int := 400

/-- The value nearest to `± digits * 10 ^ exponent`. `size` is the number of decimal digits of
`digits`; it keeps the powers of ten within reach. -/
def ofDecimal (negative : Bool) (digits size : Nat) (exponent : Int) : Binary64 :=
  if digits = 0 then finite negative 0 minPower
  else if exponent + size > decimalReach then infinite negative
  else if exponent + size < -decimalReach then finite negative 0 minPower
  else ofFraction negative (digits * Nat.pow 10 exponent.toNat) (Nat.pow 10 (-exponent).toNat)

end Binary64

end ProcLang.Numeral
