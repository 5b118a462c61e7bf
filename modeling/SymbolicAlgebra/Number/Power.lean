import SymbolicAlgebra.Number.Functions

/-!
# Number/Power — powers and roots

Powers with an exact whole exponent stay in the lane of the base.  A rational power of a rational
stays exact when the root is a rational that the search around a double finds; otherwise it moves to
the approximate lane.  A negative base with any other exponent has its principal value.
-/

namespace SymbolicAlgebra.Number

/-! ## Exact roots -/

section Roots

-- the power of doubles that the search for a root starts from
variable (power : Float → Float → Float)

/-- The exact `n`-th root of a natural number, searched at the whole number nearest to its double and
next to it; numbers of 1000 and more binary digits are not searched. -/
def natRoot? (n k : Nat) : Except NumberFault (Option Nat) :=
  if k < 2 then .ok (some k)
  else if Nat.pow 2 999 ≤ k then .ok none
  else do
    if Double.isInfinite (Double.ofInt n) then throw .integerTooLarge
    let guess := (Double.nearestInt (power (Double.ofInt k) (1 / Double.ofInt n))).toNat
    let isRoot (c : Nat) : Bool := (decide (c < 2) || decide (n ≤ k.log2)) && Nat.pow c n == k
    return [guess - 1, guess, guess + 1].find? isRoot

/-- The exact `n`-th root of a rational that is not negative. -/
def ratRoot? (n : Nat) (q : Rat) : Except NumberFault (Option Rat) := do
  match ← natRoot? power n q.num.natAbs with
  | none => return none
  | some a =>
      match ← natRoot? power n q.den with
      | none => return none
      | some b => return some (mkRat a b)

end Roots

/-- An integer power of a rational; zero has no negative power. -/
def ratPow (q : Rat) (n : Int) : Except NumberFault Rat :=
  if 0 ≤ n then .ok (q ^ n.toNat)
  else if q == 0 then .error .zeroRational
  else .ok (q⁻¹ ^ (-n).toNat)

/-! ## Powers -/

/-- Squares of the base multiplied for the set binary digits of `n`, from the lowest. -/
def powNatFrom (result base : Number) (n : Nat) : Except NumberFault Number :=
  if n = 0 then .ok result
  else do
    let result ← if n % 2 = 1 then result.mul base else .ok result
    let base ← base.mul base
    powNatFrom result base (n / 2)

/-- A power of a complex number with an integer exponent. -/
def powInt (base : Number) (n : Int) : Except NumberFault Number := do
  let r ← powNatFrom one base n.natAbs
  if n < 0 then r.inv else return r

/-- A double raised to an integer; a result out of range is infinite. -/
def floatPowInt (x : Float) (n : Int) : Except NumberFault Scalar :=
  let e := Double.ofInt n
  if Double.isInfinite e then .ok (.machine Double.infinity)
  else
    match Double.pow x e with
    | .error .range => .ok (.machine Double.infinity)
    | r => do return .machine (← liftDouble r)

/-- A power with an exact whole exponent. -/
def powWhole (base : Number) (n : Int) : Except NumberFault Number :=
  if base.isZero && decide (n < 0) then .ok notANumber
  else
    match base with
    | .real (.exact q) => do return .real (.exact (← ratPow q n))
    | .real (.machine x) => do return .real (← floatPowInt x n)
    | .real (.big d p) => do
        return .real (.big (← liftDecimal (Decimal.pow p d (.ofInt n))) p)
    | .complex _ _ => powInt base n

/-- A real power with a real value, outside the exact lane. -/
def powApproximate (precision : Nat) (base exponent : Scalar) : Except NumberFault Scalar :=
  let lane? : Option Nat :=
    match Scalar.bigLane? base exponent with
    | some p => some (max precision p)
    | none =>
        if base.isExact && exponent.isExact && prefersDecimal precision then some precision
        else none
  match lane? with
  | some lane => do
      let x ← base.toDecimal lane
      let y ← exponent.toDecimal lane
      return .big (← liftDecimal (x.pow lane y)) lane
  | none =>
      match Double.pow base.toFloat exponent.toFloat with
      | .error .range => .ok (.machine Double.infinity)
      | r => do return .machine (← liftDouble r)

section Powers

variable (power : Float → Float → Float)

/-- A real power with a real value: exact if the root is. -/
def powReal (precision : Nat) (base exponent : Scalar) : Except NumberFault Scalar :=
  match base, exponent with
  | .exact b, .exact e => do
      match ← ratRoot? power e.den b with
      | some root => return .exact (← ratPow root e.num)
      | none => powApproximate precision base exponent
  | _, _ => powApproximate precision base exponent

/-- The principal value of a negative number raised to a power that is not whole. -/
def powNegative (precision : Nat) (base exponent : Scalar) : Except NumberFault Number := do
  let magnitude ← powReal power precision (← base.neg) exponent
  let ratio := exponent.toRat
  if ratio.den = 2 then
    return ofParts .zero (← if ratio.num % 4 = 1 then pure magnitude else magnitude.neg)
  else
    let lane := (decimalLane? [.real base, .real exponent] precision).getD machinePrecision
    let magnitude : Number := .real (← magnitude.approximate lane)
    let angle : Number := .real (← (← pi lane).mul exponent)
    let re ← magnitude.mul (← cos lane angle)
    let im ← magnitude.mul (← sin lane angle)
    return ofParts re.re im.re

/-- A power with a complex operand, in doubles; one that has no value is not a number. -/
def powComplex (base exponent : Number) : Except NumberFault Number :=
  match base.toComplex.pow exponent.toComplex with
  | .ok z => .ok (ofComplex z)
  | .error _ => .ok notANumber

/-- A power of numbers; `power` is used only to find exact roots. -/
def powWith (precision : Nat) (base exponent : Number) : Except NumberFault Number :=
  if base.isNaN || exponent.isNaN then .ok notANumber
  else
    match exponent.integer? with
    | some n => powWhole base n
    | none =>
        match base, exponent with
        | .real b, .real e =>
            if b.isNegative && !e.isInteger && b.isFinite && e.isFinite then
              powNegative power precision b e
            else do return .real (← powReal power precision b e)
        | base, exponent => powComplex base exponent

end Powers

def pow (precision : Nat) (base exponent : Number) : Except NumberFault Number :=
  powWith Float.pow precision base exponent

def sqrt (precision : Nat) (a : Number) : Except NumberFault Number := pow precision a half

/-- The absolute value. -/
def abs (precision : Nat) (a : Number) : Except NumberFault Number :=
  match a with
  | .complex x y => do sqrt precision (.real (← (← x.mul x).add (← y.mul y)))
  | .real x => if x.isNegative then do return .real (← x.neg) else .ok (.real x)

end SymbolicAlgebra.Number
