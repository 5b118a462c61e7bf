import Mathlib.Algebra.BigOperators.Group.List.Basic
import Mathlib.Algebra.Field.Basic
import Mathlib.Algebra.GroupWithZero.Basic
import Mathlib.Data.Rat.Cast.CharZero
import Mathlib.Tactic.Ring
import SymbolicAlgebra.Proofs.Sum

/-!
# Proofs/Value — the value of an expression in a field

An interpretation gives every symbol a value in a field and every operator outside arithmetic a
function on values; `Expr.value` evaluates.  `Defined` describes the expressions that arithmetic is
about: literals are rational, exponents whole, and nothing is divided by zero.  A `Shape` restricts
which operands an operator may have, so that one pass serves all restrictions that arithmetic keeps.
-/

namespace SymbolicAlgebra

variable {K : Type*} [Field K]

/-- Values of symbols, and functions for the operators outside arithmetic. -/
structure Interpretation (K : Type*) where
  symbol : String → K
  operator : String → List K → K

/-- The value of a rational number; zero for the others. -/
def Number.value (K : Type*) [Field K] : Number → K
  | .real (.exact q) => q
  | _ => 0

@[simp] theorem Number.value_ofRat (q : Rat) : (Number.ofRat q).value K = q := rfl

@[simp] theorem Number.value_ofInt (n : Int) : (Number.ofInt n).value K = n := by
  rw [Number.ofInt_eq_ofRat, Number.value_ofRat, Rat.cast_intCast]

@[simp] theorem Number.value_zero : Number.zero.value K = 0 := Rat.cast_zero

@[simp] theorem Number.value_one : Number.one.value K = 1 := Rat.cast_one

namespace Expr

/-- The whole number that is written as an exponent. -/
def exponent? : List Expr → Option Int
  | [_, number v] => v.integer?
  | _ => none

/-- The value of an operator on values; a power knows its exponent if that is a whole literal. -/
def combine (I : Interpretation K) : String → Option Int → List K → K
  | "Add", _, vs => vs.sum
  | "Multiply", _, vs => vs.prod
  | "Negate", _, [a] => -a
  | "Divide", _, [a, b] => a / b
  | "Power", some n, [a, _] => a ^ n
  | f, _, vs => I.operator f vs

mutual

/-- The value of an expression. -/
def value (I : Interpretation K) : Expr → K
  | number v => v.value K
  | symbol n _ _ => I.symbol n
  | application f ops _ _ => combine I f (exponent? ops) (values I ops)
  | error _ _ _ => 0

def values (I : Interpretation K) : List Expr → List K
  | [] => []
  | e :: rest => value I e :: values I rest

end

variable (I : Interpretation K)

theorem values_eq_map (es : List Expr) : values I es = es.map (value I) := by
  induction es with
  | nil => rfl
  | cons e rest ih => rw [values, ih, List.map_cons]

@[simp] theorem value_number (v : Number) : (number v).value I = v.value K := rfl

@[simp] theorem value_symbol (n : String) (d : Option Nat) (c : Bool) :
    (symbol n d c).value I = I.symbol n := rfl

@[simp] theorem value_error (code : String) (details : List String) (x : Option Expr) :
    (error code details x).value I = 0 := rfl

theorem value_application (f : String) (ops : List Expr) (d : Option Nat) (c : Bool) :
    (application f ops d c).value I = combine I f (exponent? ops) (ops.map (value I)) := by
  rw [value, values_eq_map]

@[simp] theorem value_sum (ops : List Expr) (d : Option Nat) (c : Bool) :
    (application "Add" ops d c).value I = (ops.map (value I)).sum :=
  value_application I "Add" ops d c

@[simp] theorem value_product (ops : List Expr) (d : Option Nat) (c : Bool) :
    (application "Multiply" ops d c).value I = (ops.map (value I)).prod :=
  value_application I "Multiply" ops d c

@[simp] theorem value_negation (a : Expr) (d : Option Nat) (c : Bool) :
    (application "Negate" [a] d c).value I = -a.value I :=
  value_application I "Negate" [a] d c

@[simp] theorem value_quotient (a b : Expr) (d : Option Nat) (c : Bool) :
    (application "Divide" [a, b] d c).value I = a.value I / b.value I :=
  value_application I "Divide" [a, b] d c

@[simp] theorem value_power (b : Expr) (n : Int) (d : Option Nat) (c : Bool) :
    (application "Power" [b, number (.ofInt n)] d c).value I = b.value I ^ n := by
  rw [value_application, exponent?, Number.integer?_ofInt]
  rfl

theorem exponent?_map_bare (ops : List Expr) : exponent? (ops.map bare) = exponent? ops := by
  rcases ops with _ | ⟨b, _ | ⟨n, _ | ⟨x, rest⟩⟩⟩
  · rfl
  · rfl
  · cases n <;> rfl
  · cases n <;> rfl

mutual

/-- The value does not depend on definitions and flags. -/
theorem value_bare : ∀ e : Expr, e.bare.value I = e.value I
  | number _ => rfl
  | symbol _ _ _ => rfl
  | error _ _ _ => rfl
  | application f ops d c => by
      rw [bare, value, value, values_bareAll ops, bareAll_eq_map, exponent?_map_bare]

theorem values_bareAll : ∀ es : List Expr, values I (bareAll es) = values I es
  | [] => rfl
  | e :: rest => by rw [bareAll, values, value_bare e, values_bareAll rest, values]

end

/-- Expressions of one structure have one value. -/
theorem value_of_same {e x : Expr} (he : e.isExact = true) (h : e.same x = true) :
    e.value I = x.value I := by
  rw [← value_bare, (same_iff he).1 h, value_bare]

end Expr

/-! ## Expressions that have a value -/

/-- A restriction on the operands of operators that arithmetic keeps: it builds no empty sum or
product, and a power of a product only from a power of that product. -/
structure Shape where
  Allows : String → List Expr → Prop
  bare : ∀ {f ops}, Allows f (ops.map Expr.bare) ↔ Allows f ops
  sum : ∀ {ops}, ops ≠ [] → Allows "Add" ops
  product : ∀ {ops}, ops ≠ [] → Allows "Multiply" ops
  negation : ∀ {a}, Allows "Negate" [a]
  quotient : ∀ {a b}, Allows "Divide" [a, b]
  power : ∀ {b n}, b.operator ≠ "Multiply" → Allows "Power" [b, .number n]
  power_again : ∀ {b n m}, Allows "Power" [b, .number n] → Allows "Power" [b, .number m]

/-- No restriction. -/
def Shape.any : Shape where
  Allows := fun _ _ => True
  bare := Iff.rfl
  sum := fun _ => trivial
  product := fun _ => trivial
  negation := trivial
  quotient := trivial
  power := fun _ => trivial
  power_again := fun _ => trivial

/-- **Expressions that have a value**: literals are rational, exponents are whole literals, no
denominator and no base of a negative power is zero. -/
inductive Defined (I : Interpretation K) (S : Shape) : Expr → Prop
  | number (q : Rat) : Defined I S (.number (.ofRat q))
  | symbol (n : String) (d : Option Nat) (c : Bool) : Defined I S (.symbol n d c)
  | plain {f : String} {ops : List Expr} (d : Option Nat) (c : Bool) :
      f ∉ ["Negate", "Divide", "Power", "Sequence"] → S.Allows f ops → (∀ x ∈ ops, Defined I S x) →
      Defined I S (.application f ops d c)
  | negation {a : Expr} (d : Option Nat) (c : Bool) :
      Defined I S a → Defined I S (.application "Negate" [a] d c)
  | quotient {a b : Expr} (d : Option Nat) (c : Bool) :
      Defined I S a → Defined I S b → b.value I ≠ 0 → Defined I S (.application "Divide" [a, b] d c)
  | power {b : Expr} {n : Int} (d : Option Nat) (c : Bool) :
      Defined I S b → (n < 0 → b.value I ≠ 0) → S.Allows "Power" [b, .number (.ofInt n)] →
      Defined I S (.application "Power" [b, .number (.ofInt n)] d c)

namespace Defined

variable {I : Interpretation K} {S : Shape}

theorem ofInt (n : Int) : Defined I S (.number (.ofInt n)) := number n

theorem rational {e : Expr} (h : Defined I S e) : e.isOver Number.isRational = true := by
  induction h with
  | number q => rfl
  | symbol n d c => rfl
  | plain d c _ _ _ ih => exact Expr.allOver_iff.2 ih
  | negation d c _ ih => simpa [Expr.isOver, Expr.allOver] using ih
  | quotient d c _ _ _ iha ihb => simpa [Expr.isOver, Expr.allOver] using ⟨iha, ihb⟩
  | power d c _ _ _ ih => simpa [Expr.isOver, Expr.allOver] using ⟨ih, rfl⟩

theorem proper {e : Expr} (h : Defined I S e) : e.isOver Number.isProper = true :=
  Expr.isOver_mono (fun _ => Number.isProper_of_isRational) h.rational

theorem exact {e : Expr} (h : Defined I S e) : e.isExact = true :=
  Expr.isOver_mono (fun _ => Number.isExact_of_isProper) h.proper

theorem number_cases {e : Expr} (h : Defined I S e) :
    (∃ q, e = .number (.ofRat q)) ∨ e.isNumber = false := by
  cases h with
  | number q => exact .inl ⟨q, rfl⟩
  | _ => exact .inr rfl

theorem bare {e : Expr} (h : Defined I S e) : Defined I S e.bare := by
  induction h with
  | number q => exact number q
  | symbol n d c => exact symbol n none true
  | plain d c hf hS _ ih =>
      rw [Expr.bare_application]
      exact plain none true hf (S.bare.2 hS) (List.forall_mem_map.2 ih)
  | negation d c _ ih =>
      rw [Expr.bare_application]
      exact negation none true ih
  | quotient d c _ _ hb iha ihb =>
      rw [Expr.bare_application]
      exact quotient none true iha ihb (by rwa [Expr.value_bare])
  | power d c _ hb hS ih =>
      rw [Expr.bare_application]
      exact power none true ih (by rwa [Expr.value_bare]) (S.bare.2 hS)

/-- The operands of an expression with a value have values. -/
theorem operand {f : String} {ops : List Expr} {d : Option Nat} {c : Bool}
    (h : Defined I S (.application f ops d c)) : ∀ x ∈ ops, Defined I S x := by
  cases h with
  | plain _ _ _ _ hops => exact hops
  | negation _ _ ha => simpa using ha
  | quotient _ _ ha hb _ => simpa using ⟨ha, hb⟩
  | power _ _ hb _ _ => simpa using ⟨hb, Defined.ofInt _⟩

/-- What an application with a value looks like. -/
theorem application_cases {f : String} {ops : List Expr} {d : Option Nat} {c : Bool}
    (h : Defined I S (.application f ops d c)) :
    (f ∉ ["Negate", "Divide", "Power", "Sequence"] ∧ S.Allows f ops) ∨
      (f = "Negate" ∧ ∃ a, ops = [a]) ∨
      (f = "Divide" ∧ ∃ a b, ops = [a, b] ∧ b.value I ≠ 0) ∨
      f = "Power" ∧ ∃ b n, ops = [b, .number (.ofInt n)] ∧ (n < 0 → b.value I ≠ 0) ∧
        S.Allows "Power" ops := by
  cases h with
  | plain _ _ hf hS _ => exact .inl ⟨hf, hS⟩
  | negation _ _ _ => exact .inr (.inl ⟨rfl, _, rfl⟩)
  | quotient _ _ _ _ hb => exact .inr (.inr (.inl ⟨rfl, _, _, rfl, hb⟩))
  | power _ _ _ hb hS => exact .inr (.inr (.inr ⟨rfl, _, _, rfl, hb, hS⟩))

theorem negation_inv {ops : List Expr} {d : Option Nat} {c : Bool}
    (h : Defined I S (.application "Negate" ops d c)) : ∃ a, ops = [a] := by
  rcases h.application_cases with ⟨hf, -⟩ | ⟨-, ha⟩ | ⟨hf, -⟩ | ⟨hf, -⟩
  · exact absurd hf (by decide)
  · exact ha
  · exact absurd hf (by decide)
  · exact absurd hf (by decide)

theorem quotient_inv {ops : List Expr} {d : Option Nat} {c : Bool}
    (h : Defined I S (.application "Divide" ops d c)) : ∃ a b, ops = [a, b] ∧ b.value I ≠ 0 := by
  rcases h.application_cases with ⟨hf, -⟩ | ⟨hf, -⟩ | ⟨-, hab⟩ | ⟨hf, -⟩
  · exact absurd hf (by decide)
  · exact absurd hf (by decide)
  · exact hab
  · exact absurd hf (by decide)

theorem power_inv {ops : List Expr} {d : Option Nat} {c : Bool}
    (h : Defined I S (.application "Power" ops d c)) :
    ∃ b n, ops = [b, .number (.ofInt n)] ∧ (n < 0 → b.value I ≠ 0) ∧ S.Allows "Power" ops := by
  rcases h.application_cases with ⟨hf, -⟩ | ⟨hf, -⟩ | ⟨hf, -⟩ | ⟨-, hb⟩
  · exact absurd hf (by decide)
  · exact absurd hf (by decide)
  · exact absurd hf (by decide)
  · exact hb

theorem lacksOperand {e : Expr} (h : Defined I S e) : e.lacksOperand = false := by
  cases e with
  | application f ops d c =>
      rcases h.application_cases with ⟨hf, -⟩ | ⟨rfl, a, rfl⟩ | ⟨rfl, a, b, rfl, -⟩ |
        ⟨rfl, b, n, rfl, -, -⟩
      · simp only [List.mem_cons, not_or] at hf
        simp [Expr.lacksOperand, hf.1, hf.2.1, hf.2.2.1]
      · rfl
      · rfl
      · rfl
  | _ => rfl

theorem ne_sequence {f : String} {ops : List Expr} {d : Option Nat} {c : Bool}
    (h : Defined I S (.application f ops d c)) : f ≠ "Sequence" := by
  cases h with
  | plain _ _ hf => exact fun h => hf (by simp [h])
  | _ => decide

theorem application_of_bare {f : String} {ops : List Expr} {d : Option Nat} {c : Bool}
    (h : Defined I S (.node f (ops.map Expr.bare))) (hops : ∀ x ∈ ops, Defined I S x) :
    Defined I S (.application f ops d c) := by
  rcases h.application_cases with ⟨hf, hS⟩ | ⟨rfl, a, ha⟩ | ⟨rfl, a, b, hab, hb⟩ |
    ⟨rfl, b, n, hbn, hb, hS⟩
  · exact plain d c hf (S.bare.1 hS) hops
  · obtain ⟨a', rfl, -⟩ := List.map_eq_singleton_iff.1 ha
    exact negation d c (hops a' (by simp))
  · rcases ops with _ | ⟨a', _ | ⟨b', _ | ⟨x, rest⟩⟩⟩ <;> simp at hab
    obtain ⟨-, rfl⟩ := hab
    exact quotient d c (hops a' (by simp)) (hops b' (by simp)) (by rwa [← Expr.value_bare])
  · rcases ops with _ | ⟨b', _ | ⟨n', _ | ⟨x, rest⟩⟩⟩ <;> simp at hbn
    obtain ⟨rfl, hn⟩ := hbn
    obtain rfl : n' = .number (.ofInt n) := by cases n' <;> simp_all [Expr.bare]
    exact power d c (hops b' (by simp)) (by rwa [← Expr.value_bare]) (S.bare.1 hS)

mutual

/-- Having a value does not depend on definitions and flags. -/
theorem of_bare : ∀ {e : Expr}, Defined I S e.bare → Defined I S e
  | .number _, h => h
  | .symbol n d c, _ => symbol n d c
  | .error _ _ _, h => by cases h
  | .application f ops d c, h => by
      rw [Expr.bare_application] at h
      exact application_of_bare h (of_bare_all (List.forall_mem_map.1 h.operand))

theorem of_bare_all : ∀ {es : List Expr}, (∀ e ∈ es, Defined I S e.bare) → ∀ e ∈ es, Defined I S e
  | [], _ => by simp
  | e :: rest, h => by
      rw [List.forall_mem_cons] at h ⊢
      exact ⟨of_bare h.1, of_bare_all h.2⟩

end

end Defined

end SymbolicAlgebra
