import SymbolicAlgebra.Decimal.Elementary

/-!
# Decimal/Circular — π, sine, cosine and arctangent of decimals

Each function sums a series in decimal arithmetic at a working precision until a partial sum stays,
and rounds it.  The terms of every series used here shrink by at least a fixed factor, so a number
of terms proportional to the working precision always suffices; that number is the explicit bound of
the loops.
-/

namespace SymbolicAlgebra.Decimal

/-! ## π -/

/-- The state of the series for `π`: term, sum, and the four running factors. -/
structure PiState where
  term : Decimal
  total : Decimal
  n : Nat
  na : Nat
  d : Nat
  da : Nat

/-- The first term and partial sum. -/
def PiState.start : PiState := ⟨ofNat 3, ofNat 3, 1, 0, 0, 24⟩

/-- Adds the next term. -/
def PiState.next (precision : Nat) (st : PiState) : Except Signal PiState := do
  let n := st.n + st.na
  let d := st.d + st.da
  let term ← div precision (← mul precision st.term (ofNat n)) (ofNat d)
  let total ← add precision st.total term
  .ok ⟨term, total, n, st.na + 8, d, st.da + 32⟩

/-- Adds terms until the sum stays. -/
def piLoop (precision : Nat) : Nat → PiState → Except Signal PiState
  | 0, st => .ok st
  | fuel + 1, st => do
      let st' ← st.next precision
      if equal st'.total st.total then .ok st' else piLoop precision fuel st'

/-- `π` to a precision. -/
def pi (precision : Nat) : Except Signal Decimal := do
  let st ← piLoop (precision + 2) (4 * precision + 20) .start
  plus precision st.total

/-- `e` to a precision. -/
def euler (precision : Nat) : Except Signal Decimal := exp precision (ofNat 1)

/-! ## Sine and cosine -/

/-- Brings an angle between `-π` and `π`; gives the working precision used with it. -/
def reduceAngle (precision : Nat) (x : Decimal) : Except Signal (Decimal × Nat) := do
  let working := precision + (max 0 x.adjusted).toNat + 4
  let pi ← pi working
  let turn ← mul working (ofNat 2) pi
  let r ← floorMod working (← add working x pi) turn
  .ok (← sub working r pi, working)

/-- Adds the terms `± x ^ i / i!` two by two until the sum stays: `i` is the last exponent used,
`fact` its factorial, `power` the power. -/
def circularLoop (precision : Nat) (x : Decimal) :
    Nat → (i fact : Nat) → (power total : Decimal) → (negative : Bool) → Except Signal Decimal
  | 0, _, _, _, total, _ => .ok total
  | fuel + 1, i, fact, power, total, negative => do
      let i := i + 2
      let fact := fact * (i * (i - 1))
      let power ← mul precision power (← mul precision x x)
      let term ← div precision power (ofNat fact)
      let term ← mul precision term (ofInt (if negative then 1 else -1))
      let total' ← add precision total term
      if equal total' total then .ok total'
      else circularLoop precision x fuel i fact power total' !negative

/-- The bound on the number of terms of a circular series. -/
def circularTerms (working : Nat) : Nat := 4 * working + 60

def cos (precision : Nat) (x : Decimal) : Except Signal Decimal :=
  if !x.isFinite then .ok notANumber
  else do
    let (x, working) ← reduceAngle precision x
    let one := ofNat 1
    plus precision (← circularLoop (working + 2) x (circularTerms working) 0 1 one one false)

def sin (precision : Nat) (x : Decimal) : Except Signal Decimal :=
  if !x.isFinite then .ok notANumber
  else do
    let (x, working) ← reduceAngle precision x
    if x.isZero then plus precision x
    else plus precision (← circularLoop (working + 2) x (circularTerms working) 1 1 x x false)

def tan (precision : Nat) (x : Decimal) : Except Signal Decimal := do
  div precision (← sin (precision + 2) x) (← cos (precision + 2) x)

/-- Hyperbolic sine and cosine, unrounded. -/
def sinhCosh (precision : Nat) (x : Decimal) : Except Signal (Decimal × Decimal) := do
  let width := precision + 2 + (max 0 (-x.adjusted)).toNat
  let up ← exp width x
  let down ← div width (ofNat 1) up
  let sinh ← div width (← sub width up down) (ofNat 2)
  let cosh ← div width (← add width up down) (ofNat 2)
  .ok (sinh, cosh)

/-! ## Arctangent -/

/-- Three-way comparison that refuses what is not a number. -/
def order (x y : Decimal) : Except Signal Ordering :=
  match compare? x y with
  | some o => .ok o
  | none => .error .invalidOperation

/-- Halves the angle until its tangent is at most `0.1`; counts the halvings.  The tangent of half a
right angle or less at least halves each time. -/
def halveAngle (precision : Nat) : Nat → Decimal → Nat → Except Signal (Decimal × Nat)
  | 0, x, times => .ok (x, times)
  | fuel + 1, x, times => do
      if (← order x (.finite false 1 (-1))) != .gt then .ok (x, times)
      else
        let square ← add precision (ofNat 1) (← mul precision x x)
        let half ← div precision x (← add precision (ofNat 1) (← sqrt precision square))
        halveAngle precision fuel half (times + 1)

/-- Adds the terms `± x ^ n / n` until the sum stays. -/
def atanLoop (precision : Nat) (square : Decimal) :
    Nat → (n : Nat) → (term total : Decimal) → Except Signal Decimal
  | 0, _, _, total => .ok total
  | fuel + 1, n, term, total => do
      let term ← mul precision term (← negate precision square)
      let n := n + 2
      let total' ← add precision total (← div precision term (ofNat n))
      if equal total' total then .ok total' else atanLoop precision square fuel n term total'

/-- The arctangent of a number that is not negative. -/
def atanPositive (precision : Nat) (x : Decimal) : Except Signal Decimal := do
  let width := precision + 5
  let (x, times) ← halveAngle width 64 x 0
  let square ← mul width x x
  let total ← if x.isZero then .ok x else atanLoop width square (2 * width + 20) 1 x x
  plus precision (← mul width total (ofNat (Nat.pow 2 times)))

/-- The arctangent, where signs are changed at the precision `outer`. -/
def atan (outer precision : Nat) (x : Decimal) : Except Signal Decimal := do
  if (← order x (ofNat 0)) == .lt then
    negate outer (← atanPositive precision (← negate outer x))
  else atanPositive precision x

/-- The angle of the point `(x, y)`. -/
def atan2 (precision : Nat) (y x : Decimal) : Except Signal Decimal := do
  let working := precision + 2
  let pi ← pi working
  let angle ←
    match ← order x (ofNat 0) with
    | .gt => atan working working (← div working y x)
    | .lt => do
        let a ← atan working working (← div working y x)
        let turn ← if (← order y (ofNat 0)) == .lt then negate working pi else .ok pi
        add working a turn
    | .eq =>
        if y.isZero then .ok (ofNat 0)
        else if (← order y (ofNat 0)) == .gt then div working pi (ofNat 2)
        else div working (← negate working pi) (ofNat 2)
  plus precision angle

end SymbolicAlgebra.Decimal
