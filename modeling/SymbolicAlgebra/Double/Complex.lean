import SymbolicAlgebra.Double.Elementary

/-!
# Double/Complex — functions of complex doubles

Products, quotients and powers follow the textbook formulas in the order written here; the circular
functions go through the hyperbolic ones at `i · z`.  At infinite arguments the real and imaginary
parts take their limits.
-/

namespace SymbolicAlgebra.Double

/-- A complex double. -/
structure Complex where
  re : Float
  im : Float

namespace Complex

def one : Complex := ⟨1, 0⟩

def isFinite (z : Complex) : Bool := Double.isFinite z.re && Double.isFinite z.im

def isInfinite (z : Complex) : Bool := Double.isInfinite z.re || Double.isInfinite z.im

def mul (a b : Complex) : Complex := ⟨a.re * b.re - a.im * b.im, a.re * b.im + a.im * b.re⟩

/-- The quotient; top and bottom are divided by the larger part of the divisor. -/
def div (a b : Complex) : Except Fault Complex :=
  let x := b.re.abs
  let y := b.im.abs
  if y ≤ x then
    if x == 0 then .error .zeroDivision
    else
      let ratio := b.im / b.re
      let denom := b.re + b.im * ratio
      .ok ⟨(a.re + a.im * ratio) / denom, (a.im - a.re * ratio) / denom⟩
  else if x ≤ y then
    let ratio := b.re / b.im
    let denom := b.re * ratio + b.im
    .ok ⟨(a.re * ratio + a.im) / denom, (a.im * ratio - a.re) / denom⟩
  else .ok ⟨notANumber, notANumber⟩

/-- Squares of `p` multiplied for the set binary digits of `n`, from the lowest. -/
def powNatFrom (r p : Complex) (n : Nat) : Complex :=
  if n = 0 then r
  else powNatFrom (if n % 2 = 1 then mul r p else r) (mul p p) (n / 2)

def powInt (z : Complex) (n : Int) : Except Fault Complex :=
  if 0 < n then .ok (powNatFrom one z n.toNat)
  else div one (powNatFrom one z (-n).toNat)

/-- The power in polar form; an infinite phase has no direction. -/
def powPolar (a b : Complex) : Except Fault Complex :=
  if b.re == 0 && b.im == 0 then .ok one
  else if a.re == 0 && a.im == 0 then
    if b.im != 0 || b.re < 0 then .error .zeroPower else .ok ⟨0, 0⟩
  else
    let modulus := hypot a.re a.im
    let length := Float.pow modulus b.re
    let angle := Float.atan2 a.im a.re
    let phase := angle * b.re
    let (length, phase) :=
      if b.im != 0 then (length / (angle * b.im).exp, phase + b.im * modulus.log)
      else (length, phase)
    if Double.isInfinite phase then .error .zeroPower
    else .ok ⟨length * phase.cos, length * phase.sin⟩

/-- A power: small whole exponents by multiplication, others in polar form. -/
def pow (a b : Complex) : Except Fault Complex := do
  let r ←
    if b.im == 0 && isInteger b.re && b.re.abs ≤ 100 then powInt a (toRat b.re).num
    else powPolar a b
  if r.isInfinite then .error .range else .ok r

/-- Above this the exponential of a real part is taken in two factors. -/
def logLarge : Float := Float.log (Float.ofBits 0x7FCFFFFFFFFFFFFF)

/-- Fails on an infinite result. -/
def inRange (z : Complex) : Except Fault Complex := if z.isInfinite then .error .range else .ok z

def sinh (z : Complex) : Except Fault Complex :=
  if z.isFinite then
    if logLarge < z.re.abs then
      let x := z.re - copySign 1 z.re
      inRange ⟨z.im.cos * x.sinh * euler, z.im.sin * x.cosh * euler⟩
    else inRange ⟨z.im.cos * z.re.sinh, z.im.sin * z.re.cosh⟩
  else if z.im == 0 then .ok z
  else if Double.isInfinite z.re && Double.isFinite z.im then
    .ok ⟨copySign infinity z.im.cos * copySign 1 z.re, copySign infinity z.im.sin⟩
  else if Double.isInfinite z.im && !isNaN z.re then .error .domain
  else .ok ⟨if Double.isInfinite z.re then infinity else if z.re == 0 then 0 else notANumber,
    notANumber⟩

def cosh (z : Complex) : Except Fault Complex :=
  if z.isFinite then
    if logLarge < z.re.abs then
      let x := z.re - copySign 1 z.re
      inRange ⟨z.im.cos * x.cosh * euler, z.im.sin * x.sinh * euler⟩
    else inRange ⟨z.im.cos * z.re.cosh, z.im.sin * z.re.sinh⟩
  else if z.im == 0 then
    .ok (if isNaN z.re then ⟨z.re, 0⟩ else ⟨infinity, copySign 1 z.re * z.im⟩)
  else if Double.isInfinite z.re && Double.isFinite z.im then
    .ok ⟨copySign infinity z.im.cos, copySign infinity z.im.sin * copySign 1 z.re⟩
  else if Double.isInfinite z.im && !isNaN z.re then .error .domain
  else .ok ⟨if Double.isInfinite z.re then infinity else notANumber,
    if z.re == 0 then 0 else notANumber⟩

def tanh (z : Complex) : Except Fault Complex :=
  if z.isFinite then
    if logLarge < z.re.abs then
      .ok ⟨copySign 1 z.re, 4 * z.im.sin * z.im.cos * (-2 * z.re.abs).exp⟩
    else
      let tx := z.re.tanh
      let ty := z.im.tan
      let cx := 1 / z.re.cosh
      let txty := tx * ty
      let denom := 1 + txty * txty
      .ok ⟨tx * (1 + ty * ty) / denom, ((ty / denom) * cx) * cx⟩
  else if Double.isInfinite z.re then
    .ok ⟨copySign 1 z.re,
      if z.im == 0 then z.im
      else if Double.isFinite z.im then copySign 0 (2 * z.im.sin * z.im.cos)
      else 0⟩
  else if z.im == 0 then .ok ⟨notANumber, z.im⟩
  else if Double.isInfinite z.im && Double.isFinite z.re then .error .domain
  else .ok ⟨if z.re == 0 then z.re else notANumber, notANumber⟩

def sin (z : Complex) : Except Fault Complex := do
  let s ← sinh ⟨-z.im, z.re⟩
  .ok ⟨s.im, -s.re⟩

def cos (z : Complex) : Except Fault Complex := cosh ⟨-z.im, z.re⟩

def tan (z : Complex) : Except Fault Complex := do
  let s ← tanh ⟨-z.im, z.re⟩
  .ok ⟨s.im, -s.re⟩

def exp (z : Complex) : Except Fault Complex :=
  if z.isFinite then
    if logLarge < z.re then
      let l := (z.re - 1).exp
      inRange ⟨l * z.im.cos * euler, l * z.im.sin * euler⟩
    else
      let l := z.re.exp
      inRange ⟨l * z.im.cos, l * z.im.sin⟩
  else if Double.isInfinite z.re && Double.isFinite z.im then
    let size := if 0 < z.re then infinity else 0
    .ok (if z.im == 0 then ⟨size, z.im⟩ else ⟨copySign size z.im.cos, copySign size z.im.sin⟩)
  else if z.im == 0 then .ok ⟨notANumber, z.im⟩
  else if Double.isInfinite z.im && (Double.isFinite z.re || 0 < z.re) then .error .domain
  else if Double.isInfinite z.re then
    .ok (if 0 < z.re then ⟨infinity, notANumber⟩ else ⟨0, 0⟩)
  else .ok ⟨notANumber, notANumber⟩

/-- The real part of the logarithm of a finite number that is not zero. -/
def lnModulus (x y : Float) : Float :=
  let large := Float.ofBits 0x7FCFFFFFFFFFFFFF
  let least := Float.ofBits 0x0010000000000000
  if large < x || large < y then (hypot (x / 2) (y / 2)).log + Float.log 2
  else if x < least && y < least then
    (hypot (x.scaleB 53) (y.scaleB 53)).log - 53 * Float.log 2
  else
    let h := hypot x y
    if Float.ofBits 0x3FE6B851EB851EB8 ≤ h && h ≤ Float.ofBits 0x3FFBAE147AE147AE then
      let hi := if y < x then x else y
      let lo := if y < x then y else x
      lnOnePlus ((hi - 1) * (hi + 1) + lo * lo) / 2
    else h.log

def ln (z : Complex) : Except Fault Complex :=
  if z.isFinite then
    if z.re == 0 && z.im == 0 then .error .domain
    else .ok ⟨lnModulus z.re.abs z.im.abs, Float.atan2 z.im z.re⟩
  else
    .ok ⟨if z.isInfinite then infinity else notANumber,
      if isNaN z.re || isNaN z.im then notANumber else Float.atan2 z.im z.re⟩

end Complex

end SymbolicAlgebra.Double
