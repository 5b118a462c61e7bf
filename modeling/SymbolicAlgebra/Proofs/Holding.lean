import SymbolicAlgebra.Proofs.Action
import SymbolicAlgebra.Proofs.Reading

/-!
# Proofs/Holding — what is built of a shape that is held back

Operands that are held back stand as they were written: their operators are applied to nothing but
operands that are held back themselves, and their numbers are single atoms, since a quotient or a pair
that is written is not built to a number.
-/

namespace SymbolicAlgebra

/-- Whether a number is written as an atom. -/
def Number.isAtomic : Number → Bool
  | .real (.exact q) => q.den == 1
  | .real _ => true
  | .complex _ _ => false

theorem Number.isAtomic_of_same {v w : Number} (hv : v.isAtomic = true) (h : v.same w = true) :
    w.isAtomic = true := by
  rcases v with (p | ⟨c, m⟩ | x) | _
  case complex => cases hv
  all_goals rcases w with (q | ⟨d, n⟩ | y) | _
  all_goals first
    | rfl
    | cases h
    | skip
  obtain rfl : p = q := by simpa [same, Scalar.same] using h
  exact hv

namespace Expr

mutual

/-- Whether an expression stands as it was written: nothing in it was brought into canonical form but
symbols. -/
def isHeldBack : Expr → Bool
  | number v => v.isAtomic
  | symbol _ _ _ => true
  | application _ ops _ c => !c && allHeldBack ops
  | error _ _ _ => true

def allHeldBack : List Expr → Bool
  | [] => true
  | e :: rest => isHeldBack e && allHeldBack rest

end

theorem allHeldBack_iff {es : List Expr} :
    allHeldBack es = true ↔ ∀ e ∈ es, e.isHeldBack = true := by
  induction es with
  | nil => simp [allHeldBack]
  | cons e rest ih => simp [allHeldBack, ih]

end Expr

namespace Kernel

variable {k : Kernel}

/-- What is interned as a symbol is a symbol. -/
theorem yields_intern_symbol (n : String) (d : Option Nat) (k : Kernel) :
    Yields Anyhow (intern (.symbol n d true)) k fun e _ => e.isHeldBack = true := by
  refine yields_intern (fun x _ hx => ?_) rfl
  cases x with
  | symbol _ _ _ => rfl
  | _ => cases hx

theorem makeSymbol_isHeldBack (n : String) (k : Kernel) :
    Yields Anyhow (makeSymbol n) k fun e _ => e.isHeldBack = true := by
  refine (yields_makeSymbol_same n none true k).mono fun e _ h => ?_
  cases e with
  | symbol _ _ _ => rfl
  | _ => cases h

theorem holdSymbol_isHeldBack (n : String) (k : Kernel) :
    Yields Anyhow (holdSymbol n) k fun e _ => e.isHeldBack = true := by
  unfold holdSymbol
  split
  next => exact yields_intern_symbol n none k
  next => exact (anyhow _).bind fun _ _ _ => rfl

/-- What a written shape that is no list stands for is an atom. -/
theorem isAtomic_of_numberOf {p : Nat} {r : Raw} {v : Number} (hr : r.isWritten = true)
    (h : Definition.numberOf p r = .ok v) : v.isAtomic = true := by
  cases r with
  | int n =>
      cases h
      exact beq_self_eq_true 1
  | double x =>
      cases h
      rfl
  | decimal d =>
      cases h
      rfl
  | name n => cases h
  | list items => cases h
  | _ => cases hr

theorem boxNumber_isHeldBack {r : Raw} (hr : r.isWritten = true) (k : Kernel) :
    Yields Anyhow (boxNumber r) k fun e _ => e.isHeldBack = true := by
  unfold boxNumber
  refine (anyhow getPrecision).bind fun p k _ => ?_
  refine Yields.bind (P := fun v _ => v.isAtomic = true)
    (yields_ofExcept (fun _ _ => trivial) fun v hv => isAtomic_of_numberOf hr hv) fun v k hv => ?_
  refine yields_intern (fun x _ hx => ?_) hv
  cases x with
  | number w => exact Number.isAtomic_of_same hv hx
  | _ => cases hx

theorem boxError_isHeldBack (rs : List Raw) (k : Kernel) :
    Yields Anyhow (boxError rs) k fun e _ => e.isHeldBack = true := by
  unfold boxError
  split
  next => exact rfl
  next => exact (anyhow _).bind fun _ _ _ => rfl

mutual

/-- **What is built of a written shape that is held back stands as it was written.** -/
theorem hold_isHeldBack {r : Raw} (hr : r.isWritten = true) (k : Kernel) :
    Yields Anyhow (hold r) k fun e _ => e.isHeldBack = true := by
  unfold hold
  split
  next => exact makeSymbol_isHeldBack _ k
  next => exact holdSymbol_isHeldBack _ k
  next f args =>
    rw [Raw.isWritten, Raw.allWritten, Bool.and_eq_true] at hr
    split
    next => exact boxError_isHeldBack args k
    next =>
      refine (holdAll_isHeldBack hr.2 k).bind fun es k hes => (anyhow getTable).bind fun t k _ => ?_
      exact Yields.pure (by rw [Expr.isHeldBack, hes]; rfl)
  next => exact trivial
  next => exact trivial
  next => exact trivial
  next => exact boxNumber_isHeldBack hr k
termination_by sizeOf r

theorem holdAll_isHeldBack {rs : List Raw} (hr : Raw.allWritten rs = true) (k : Kernel) :
    Yields Anyhow (holdAll rs) k fun es _ => Expr.allHeldBack es = true := by
  unfold holdAll
  split
  next => exact Yields.pure rfl
  next r rest =>
    rw [Raw.allWritten, Bool.and_eq_true] at hr
    refine (hold_isHeldBack hr.1 k).bind fun e k he => ?_
    refine (holdAll_isHeldBack hr.2 k).bind fun es k hes => Yields.pure ?_
    rw [Expr.allHeldBack, he, hes]
    rfl
termination_by sizeOf rs

end

end Kernel

end SymbolicAlgebra
