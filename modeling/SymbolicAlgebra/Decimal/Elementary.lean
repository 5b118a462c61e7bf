import SymbolicAlgebra.Decimal.Arithmetic

/-!
# Decimal/Elementary — exponential, logarithm and powers of decimals

The exponential and the logarithm are correctly rounded: a value is computed in fixed point with a
bound on its error, and the number of guard digits grows until both ends of the error interval round
alike.  Neither function takes a decimal to a tie (away from `exp 0` and `ln 1`), so some number of
guard digits decides.

A power with a whole exponent is a product of squares; any other power is `exp (y · ln x)`.
-/

namespace SymbolicAlgebra.Decimal

/-! ## Fixed-point series -/

/-- `term / k + term · square / (k + 2) + …` in fixed point, until the terms vanish. -/
def artanhSum (scale square : Nat) : Nat → Nat → Nat → Nat → Nat
  | 0, _, _, total => total
  | fuel + 1, k, term, total =>
      if term = 0 then total
      else artanhSum scale square fuel (k + 2) (term * square / scale) (total + term / k)

/-- `artanh (n / d) · scale` for `2 · n ≤ d`; each term is at most a quarter of the one before. -/
def artanh (scale n d : Nat) : Nat :=
  let z := n * scale / d
  artanhSum scale (z * z / scale) (scale.log2 + 2) 1 z 0

/-- `ln 2 · scale`. -/
def lnTwo (scale : Nat) : Nat := 2 * artanh scale 1 3

/-- `ln 10 · scale`. -/
def lnTen (scale : Nat) : Nat := 3 * lnTwo scale + 2 * artanh scale 1 9

/-- `1 + r + r² / 2 + …` in fixed point, until the terms vanish. -/
def expSum (scale r : Nat) : Nat → Nat → Nat → Nat → Nat
  | 0, _, _, total => total
  | fuel + 1, k, term, total =>
      if term = 0 then total
      else expSum scale r fuel (k + 1) (term * r / (scale * k)) (total + term)

/-- Squares a fixed-point number `times` times. -/
def squareTimes (scale : Nat) : Nat → Nat → Nat
  | 0, x => x
  | times + 1, x => squareTimes scale times (x * x / scale)

/-- `exp (r / scale) · scale` for `r < 3 · scale`: a series at `r / 256`, then eight squarings. -/
def expFixed (scale r : Nat) : Nat :=
  squareTimes scale 8 (expSum scale (r / 256) (scale.log2 + 2) 1 scale 0)

/-! ## Rounding what is known up to an error -/

/-- Rounds `± center · 10 ^ exponent`, known up to `error` units, if every value in reach rounds
alike. -/
def roundWithin? (precision : Nat) (negative : Bool) (center error : Nat) (exponent : Int) :
    Option (Except Signal Decimal) :=
  match roundCut precision negative (center - error) exponent false,
      roundCut precision negative (center + error) exponent false with
  | .ok x, .ok y => if x = y then some (.ok x) else none
  | .error a, .error b => if a = b then some (.error a) else none
  | _, _ => none

/-- Tries more and more guard digits. -/
def withGuard (attempt : Nat → Option (Except Signal Decimal)) : Except Signal Decimal :=
  match [20, 50, 150, 500, 2000, 8000].findSome? attempt with
  | some r => r
  | none => .error .invalidOperation

/-- The number one with all digits of a precision. -/
def fullOne (precision : Nat) (negative : Bool) : Decimal :=
  .finite negative (Nat.pow 10 (precision - 1)) (1 - precision)

/-! ## Exponential and logarithm -/

/-- The exponential of a finite decimal that is not zero. -/
def expFinite (precision : Nat) (s : Bool) (c : Nat) (e : Int) : Except Signal Decimal :=
  let top := e + digitCount c - 1
  if 7 < top then
    if s then round precision false 0 (tinyExponent precision) else .error .overflow
  else if top < -(precision + 3 : Int) then .ok (fullOne precision false)
  else
    withGuard fun guard =>
      let width := precision + guard + 10
      let scale := Nat.pow 10 width
      let x := signed s (c * scale * Nat.pow 10 e.toNat / Nat.pow 10 (-e).toNat)
      let ten := lnTen scale
      let k := x.fdiv ten
      let r := (x - k * ten).toNat
      roundWithin? precision false (expFixed scale r) (Nat.pow 10 18) (k - width)

def exp (precision : Nat) : Decimal → Except Signal Decimal
  | .nan s n => .ok (.nan s n)
  | .infinite s => .ok (if s then .finite false 0 0 else .infinite false)
  | .finite s c e =>
      if c = 0 then .ok (.finite false 1 0) else expFinite precision s c e

/-- The logarithm of `c · 10 ^ e`, which is positive and not one.

The argument is written `10 ^ k · 2 ^ j · (n / d)` with `n / d` between `0.63` and `1.58`, such that
`k` and `j` vanish near one. -/
def lnFinite (precision : Nat) (c : Nat) (e : Int) : Except Signal Decimal :=
  let digits := digitCount c
  let unit := Nat.pow 10 (digits - 1)
  let (n, d, k) :=
    if c * c < 10 * unit * unit then (c, unit, e + digits - 1) else (c, 10 * unit, e + digits)
  let (n, d, j) : Nat × Nat × Int :=
    if 3 * d ≤ 2 * n then (n, 2 * d, 1)
    else if 4 * n < 3 * d then (2 * n, d, -1)
    else (n, d, 0)
  let near := if k = 0 ∧ j = 0 then digitCount d - digitCount (max n d - min n d) else 0
  withGuard fun guard =>
    let width := precision + guard + near + digitCount k.natAbs + 10
    let scale := Nat.pow 10 width
    let z := signed (decide (n < d)) (2 * artanh scale (max n d - min n d) (n + d))
    let v := z + j * lnTwo scale + k * lnTen scale
    let error := Nat.pow 10 (digitCount k.natAbs + 12)
    roundWithin? precision (decide (v < 0)) v.natAbs error (-width)

def ln (precision : Nat) : Decimal → Except Signal Decimal
  | .nan s n => .ok (.nan s n)
  | .infinite s => if s then .error .invalidOperation else .ok (.infinite false)
  | .finite s c e =>
      if c = 0 then .ok (.infinite true)
      else if s then .error .invalidOperation
      else if equal (.finite s c e) (ofNat 1) then .ok (.finite false 0 0)
      else lnFinite precision c e

/-! ## Powers -/

/-- The magnitude of a whole decimal. -/
def wholePart (c : Nat) (e : Int) : Nat := c * Nat.pow 10 e.toNat / Nat.pow 10 (-e).toNat

/-- Whether a whole decimal is odd. -/
def isOddWhole : Decimal → Bool
  | .finite _ c e => decide (e ≤ 0) && decide (digitCount c > (-e).toNat) && wholePart c e % 2 == 1
  | _ => false

/-- `x ^ n` for `n > 0`: a square for each further binary digit of `n`, from the top, and a product
with `x` for each that is set. -/
def powNat (precision : Nat) (x : Decimal) (n : Nat) : Except Signal Decimal :=
  if n ≤ 1 then .ok x
  else do
    let half ← powNat precision x (n / 2)
    let square ← mul precision half half
    if n % 2 = 1 then mul precision square x else .ok square

/-- `x ^ y` for a whole `y` that is not zero, given with its coefficient and exponent. -/
def powWhole (precision : Nat) (x : Decimal) (s : Bool) (c : Nat) (e : Int) :
    Except Signal Decimal := do
  let width := ((precision : Int) + digitCount c + e + 2).toNat
  if s then
    let inverse ← div (width + 1) (ofNat 1) x
    plus precision (← powNat (width + 1) inverse (wholePart c e))
  else plus precision (← powNat width x (wholePart c e))

/-- `exp (y · ln x)` for a positive `x`, with guard digits for each step. -/
def powReal (precision : Nat) (x y : Decimal) : Except Signal Decimal := do
  let digits :=
    match x with
    | .finite _ c _ => digitCount c
    | _ => 0
  let width := max digits precision + 23
  let r ← exp width (← mul width (← ln width x) y)
  if equal r (ofNat 1) then .ok (fullOne precision false) else plus precision r

/-- A lower bound for the exponent of the leading digit of `log10 x`, for a positive `x` that is not
one. -/
def logExponentBound (c : Nat) (e : Int) : Int :=
  let top := e + digitCount c - 1
  if 1 ≤ top then digitCount top.toNat - 1
  else if top ≤ -2 then digitCount (-1 - top).toNat - 1
  else
    let unit := Nat.pow 10 (-e).toNat
    if top = 0 then
      let n := c - unit
      let d := 231 * c
      (digitCount n : Int) - digitCount d + 1
    else
      let n := unit - c
      (digitCount n : Int) + e - 2

/-- Whether `x ^ y` is certainly above (`some true`) or certainly below (`some false`) every decimal
of the range. -/
def powOutOfRange? (precision : Nat) (c : Nat) (e : Int) (y : Decimal) : Option Bool :=
  let grows := (compareMagnitude c e 1 0 == .gt) != y.isSigned
  let bound := logExponentBound c e + y.adjusted
  if grows then (if digitCount maxExponent.toNat ≤ bound then some true else none)
  else if digitCount (-tinyExponent precision).toNat ≤ bound then some false else none

/-- The powers of `± 1`, where `e` is the exponent of the base. -/
def powOne (precision : Nat) (negative : Bool) (e : Int) (y : Decimal) : Decimal :=
  match y with
  | .finite s c f =>
      if y.isInteger then
        if s then .finite negative 1 0
        else
          let places := min ((wholePart c f : Int) * -e) (precision - 1)
          .finite negative (Nat.pow 10 places.toNat) (-places)
      else fullOne precision negative
  | _ => fullOne precision negative

def pow (precision : Nat) (x y : Decimal) : Except Signal Decimal :=
  let whole := y.isInteger
  let negative := x.isSigned && whole && isOddWhole y
  match x, y with
  | .nan s n, _ => .ok (.nan s n)
  | _, .nan s n => .ok (.nan s n)
  | .infinite s, y =>
      if s && (!whole || y.isInfinite) then .error .invalidOperation
      else if y.isZero then .ok (.finite negative 1 0)
      else if y.isSigned then .ok (.finite negative 0 0)
      else .ok (.infinite negative)
  | .finite s c e, .infinite t =>
      if c = 0 then .ok (if t then .infinite negative else .finite negative 0 0)
      else if s then .error .invalidOperation
      else
        match compareMagnitude c e 1 0 with
        | .eq => .ok (fullOne precision negative)
        | .gt => .ok (if t then .finite negative 0 0 else .infinite negative)
        | .lt => .ok (if t then .infinite negative else .finite negative 0 0)
  | .finite s c e, .finite t d f =>
      if c = 0 then
        if d = 0 then .error .invalidOperation
        else if t then .ok (.infinite negative)
        else .ok (.finite negative 0 0)
      else if s && !whole then .error .invalidOperation
      else if d = 0 then .ok (.finite negative 1 0)
      else if compareMagnitude c e 1 0 == .eq then .ok (powOne precision negative e y)
      else
        match powOutOfRange? precision c e y with
        | some true => .error .overflow
        | some false => round precision negative 0 (tinyExponent precision)
        | none =>
            if whole then powWhole precision x t d f else powReal precision x y

end SymbolicAlgebra.Decimal
