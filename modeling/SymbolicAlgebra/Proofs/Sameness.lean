import Mathlib.Algebra.Order.Field.Rat
import Mathlib.Algebra.GroupWithZero.Units.Basic
import Mathlib.Data.List.Perm.Subperm
import SymbolicAlgebra.Kernel.Construct
import SymbolicAlgebra.Order
import SymbolicAlgebra.Proofs.Action
import SymbolicAlgebra.Proofs.DoubleOrder
import SymbolicAlgebra.Proofs.Structure

/-!
# Proofs/Sameness — being the same is an equivalence

`Expr.same` compares values within a lane, where not-a-number equals not-a-number and digits do not
count.  In each lane that is equality of a *trace*, so it is an equivalence on all expressions
(`Expr.same_equivalence`), and lists hold the same expressions equally often if they are
permutations of each other up to it (`sameMultiset_iff`).
-/

namespace SymbolicAlgebra

/-! ## Doubles -/

namespace Double

open Float.Model Float.Model.UnpackedFloat

theorem compare_of_isNaN {a b : UnpackedFloat} (h : (a.isNaN || b.isNaN) = true) :
    a.compare b = none := by
  cases a <;> cases b <;> simp_all [UnpackedFloat.compare, UnpackedFloat.isNaN]

theorem not_lt_of_isNaN {x y : Float} (h : (x.isNaN || y.isNaN) = true) : ¬x < y := by
  intro hlt
  have hlt : decide (UnpackedFloat.lt (unpacked x) (unpacked y) = true) = true := hlt
  rw [decide_eq_true_iff, UnpackedFloat.lt, compare_of_isNaN h] at hlt
  cases hlt

theorem beq_of_isNaN {x y : Float} (h : (x.isNaN || y.isNaN) = true) : (x == y) = false := by
  change UnpackedFloat.beq (unpacked x) (unpacked y) = false
  rw [UnpackedFloat.beq, compare_of_isNaN h]
  rfl

/-- Of two doubles at most one is below the other. -/
theorem lt_asymm {x y : Float} (h : x < y) : ¬y < x := by
  cases hn : x.isNaN || y.isNaN with
  | true => exact absurd h (not_lt_of_isNaN hn)
  | false =>
      rw [Bool.or_eq_false_iff] at hn
      rw [lt_iff hn.1 hn.2] at h
      rw [lt_iff hn.2 hn.1]
      exact h.not_gt

/-- What a double is compared by. -/
def trace (x : Float) : Option (ℤ ×ₗ ℤ ×ₗ ℤ) := if x.isNaN then none else some (place (unpacked x))

theorem same_iff (x y : Float) :
    ((isNaN x && isNaN y) || x == y) = true ↔ trace x = trace y := by
  rw [isNaN, isNaN, trace, trace]
  cases hx : x.isNaN with
  | true =>
      rw [beq_of_isNaN (by rw [hx]; rfl)]
      cases y.isNaN <;> simp
  | false =>
      cases hy : y.isNaN with
      | true =>
          rw [beq_of_isNaN (by rw [hy, Bool.or_true])]
          simp
      | false => simp [beq_iff hx hy]

end Double

/-! ## Decimals -/

namespace Decimal

/-- What a finite decimal that is not zero is compared by: its sign, its leading exponent and its
size. -/
def sizeTrace (negative : Bool) (c : Nat) (e : Int) : Bool × ℤ × ℚ :=
  (negative, e + digitCount c, (c : ℚ) * 10 ^ e)

/-- What a decimal is compared by: nothing for a not-a-number. -/
def trace : Decimal → Option (Bool ⊕ Option (Bool × ℤ × ℚ))
  | .nan _ _ => none
  | .infinite s => some (.inl s)
  | .finite s c e => some (.inr (if c = 0 then none else some (sizeTrace s c e)))

/-- Aligned coefficients are equal if the sizes are. -/
theorem eq_mul_pow_iff {c d : Nat} {e f : Int} (h : e ≤ f) :
    c = d * Nat.pow 10 (f - e).toNat ↔ (c : ℚ) * 10 ^ e = (d : ℚ) * 10 ^ f := by
  obtain ⟨n, hn⟩ := Int.eq_ofNat_of_zero_le (show 0 ≤ f - e by omega)
  obtain rfl : f = e + n := by omega
  have hpos : (10 : ℚ) ^ e ≠ 0 := zpow_ne_zero e (by norm_num)
  rw [show (e + (n : ℤ) - e).toNat = n by omega, zpow_add₀ (by norm_num), zpow_natCast,
    mul_comm ((10 : ℚ) ^ e), ← mul_assoc, mul_left_inj' hpos, Nat.pow_eq]
  exact_mod_cast Iff.rfl

theorem compareMagnitude_eq {s : Bool} {c d : Nat} {e f : Int} (hc : c ≠ 0) (hd : d ≠ 0) :
    compareMagnitude c e d f = .eq ↔ sizeTrace s c e = sizeTrace s d f := by
  rw [compareMagnitude, if_neg hc, if_neg hd, sizeTrace, sizeTrace, Prod.mk.injEq, Prod.mk.injEq]
  simp only [true_and]
  split
  next hlt => simp [hlt.ne]
  next hnlt =>
    split
    next hgt => simp [hgt.ne']
    next hngt =>
      have heq : e + (digitCount c : ℤ) = f + digitCount d := le_antisymm (not_lt.1 hngt) (not_lt.1 hnlt)
      rw [and_iff_right heq]
      split
      next hef => rw [compare_eq_iff_eq, eq_mul_pow_iff hef]
      next hef => rw [compare_eq_iff_eq, eq_comm, eq_mul_pow_iff (not_le.1 hef).le, eq_comm]

theorem same_iff (x y : Decimal) :
    ((x.isNaN && y.isNaN) || x.equal y) = true ↔ x.trace = y.trace := by
  rcases x with ⟨s, c, e⟩ | s | ⟨s, m⟩ <;> rcases y with ⟨t, d, f⟩ | t | ⟨t, n⟩
  case finite.finite =>
    simp only [isNaN, equal, compare?, trace, Bool.false_and, Bool.false_or, beq_iff_eq,
      Option.some.injEq, Sum.inr.injEq]
    by_cases hc : c = 0
    · by_cases hd : d = 0
      · simp [hc, hd]
      · cases t <;> simp [hc, hd]
    · by_cases hd : d = 0
      · cases s <;> simp [hc, hd]
      · rw [if_neg (by simp [hc]), if_neg hc, if_neg hd, if_neg hc, if_neg hd, Option.some.injEq]
        cases s <;> cases t
        · simpa using compareMagnitude_eq (s := false) hc hd
        · simp [sizeTrace]
        · simp [sizeTrace]
        · rw [if_pos rfl, if_pos rfl, compareMagnitude_eq (s := true) hd hc, eq_comm]
  case infinite.infinite => cases s <;> cases t <;> simp [isNaN, equal, compare?, trace]
  case finite.infinite => cases t <;> simp [isNaN, equal, compare?, trace]
  case infinite.finite => cases s <;> simp [isNaN, equal, compare?, trace]
  all_goals simp [isNaN, equal, compare?, trace]

end Decimal

/-! ## Numbers -/

/-- What a scalar is compared by within its lane. -/
inductive Scalar.Trace
  | exact (q : ℚ)
  | big (d : Option (Bool ⊕ Option (Bool × ℤ × ℚ)))
  | machine (x : Option (ℤ ×ₗ ℤ ×ₗ ℤ))

namespace Scalar

def trace : Scalar → Trace
  | exact q => .exact q
  | big d _ => .big d.trace
  | machine x => .machine (Double.trace x)

theorem same_iff_trace (x y : Scalar) : x.same y = true ↔ x.trace = y.trace := by
  cases x <;> cases y <;>
    simp only [same, trace, Decimal.same_iff, Double.same_iff, beq_iff_eq, Trace.exact.injEq,
      Trace.big.injEq, Trace.machine.injEq, reduceCtorEq, Bool.false_eq_true]

end Scalar

namespace Number

/-- What a number is compared by. -/
def trace : Number → Scalar.Trace × Option Scalar.Trace
  | real x => (x.trace, none)
  | complex x y => (x.trace, some y.trace)

theorem same_iff_trace (v w : Number) : v.same w = true ↔ v.trace = w.trace := by
  cases v <;> cases w <;> simp [same, trace, Scalar.same_iff_trace]

end Number

/-! ## Expressions -/

namespace Expr

mutual

theorem same_refl : ∀ e : Expr, e.same e = true
  | number v => (Number.same_iff_trace v v).2 rfl
  | symbol n _ _ => beq_self_eq_true n
  | error c ds none => by simp [same]
  | error c ds (some x) => by simp [same, same_refl x]
  | application f xs _ _ => by simp [same, sameAll_refl xs]

theorem sameAll_refl : ∀ es : List Expr, sameAll es es = true
  | [] => rfl
  | e :: rest => by simp [sameAll, same_refl e, sameAll_refl rest]

end

theorem congruence_symm :
    Congruence (fun e x => x.same e = true) fun xs ys => sameAll ys xs = true where
  number h := (Number.same_iff_trace _ _).2 ((Number.same_iff_trace _ _).1 h).symm
  symbol := beq_self_eq_true _
  application _ h := by rw [same, h, beq_self_eq_true, Bool.and_self]
  error h := by
    cases h with
    | none => simp [same]
    | some h => simp [same, h]
  nil := rfl
  cons _ hx hxs := by rw [sameAll, hx, hxs, Bool.and_self]

theorem same_symm {e x : Expr} (h : e.same x = true) : x.same e = true :=
  congruence_symm.of_same h

theorem length_of_sameAll {xs ys : List Expr} (h : sameAll xs ys = true) :
    xs.length = ys.length :=
  (sameAll_iff_forall₂.1 h).length_eq

theorem congruence_trans :
    Congruence (fun e x => ∀ y, x.same y = true → e.same y = true)
      fun xs ys => ∀ zs, sameAll ys zs = true → sameAll xs zs = true where
  number h y h' := by
    cases y with
    | number u =>
        exact (Number.same_iff_trace _ u).2
          (((Number.same_iff_trace _ _).1 h).trans ((Number.same_iff_trace _ u).1 h'))
    | _ => cases h'
  symbol y h' := by cases y <;> exact h'
  application _ h y h' := by
    cases y with
    | application g zs _ _ =>
        rw [same, Bool.and_eq_true] at h' ⊢
        exact ⟨h'.1, h zs h'.2⟩
    | _ => cases h'
  error h y h' := by
    cases y with
    | error code details z =>
        cases h with
        | none => exact h'
        | some h =>
            cases z with
            | none => simp [same] at h'
            | some z =>
                simp only [same, Bool.and_eq_true] at h' ⊢
                exact ⟨h'.1, h z h'.2⟩
    | _ => cases h'
  nil _ h' := h'
  cons _ hx hxs zs h' := by
    cases zs with
    | nil => cases h'
    | cons z zs =>
        rw [sameAll, Bool.and_eq_true] at h' ⊢
        exact ⟨hx z h'.1, hxs zs h'.2⟩

theorem same_trans {e x y : Expr} (h : e.same x = true) (h' : x.same y = true) : e.same y = true :=
  congruence_trans.of_same h y h'

/-- **Being the same is an equivalence**, in all lanes and with errors. -/
theorem same_equivalence : Equivalence fun e x : Expr => e.same x = true :=
  ⟨same_refl, same_symm, same_trans⟩

theorem same_comm (e x : Expr) : e.same x = x.same e :=
  Bool.eq_iff_iff.2 ⟨same_symm, same_symm⟩

/-- Expressions up to being the same. -/
instance sameness : Setoid Expr := ⟨fun e x => e.same x = true, same_equivalence⟩

end Expr

namespace Kernel

/-- The class of an expression. -/
abbrev classOf (e : Expr) : Quotient Expr.sameness := Quotient.mk _ e

theorem classOf_eq {e x : Expr} : classOf e = classOf x ↔ e.same x = true := Quotient.eq

open scoped Classical in
theorem countP_same (e : Expr) (es : List Expr) :
    es.countP e.same = (es.map classOf).count (classOf e) := by
  rw [List.count, List.countP_map]
  refine List.countP_congr fun x _ => ?_
  simp only [Function.comp_apply, beq_iff_eq, classOf_eq]
  exact ⟨Expr.same_symm, Expr.same_symm⟩

/-- **Lists hold the same expressions equally often if they are permutations up to being the same.** -/
theorem sameMultiset_iff (xs ys : List Expr) :
    sameMultiset xs ys = true ↔ (xs.map classOf).Perm (ys.map classOf) := by
  classical
  simp only [sameMultiset, Bool.and_eq_true, beq_iff_eq, List.all_eq_true, countP_same]
  constructor
  · rintro ⟨hlength, hcount⟩
    have hsub : (xs.map classOf).Subperm (ys.map classOf) := by
      refine List.subperm_ext_iff.2 fun c hc => ?_
      obtain ⟨x, hx, rfl⟩ := List.mem_map.1 hc
      exact (hcount x hx).le
    exact hsub.perm_of_length_le (by simp [hlength])
  · intro h
    exact ⟨by simpa using h.length_eq, fun x _ => h.count_eq _⟩

theorem sameMultiset_comm (xs ys : List Expr) : sameMultiset xs ys = sameMultiset ys xs := by
  rw [Bool.eq_iff_iff, sameMultiset_iff, sameMultiset_iff]
  exact ⟨.symm, .symm⟩

/-! ## What is interned -/

variable {E : Fault → Prop}

/-- An interned expression has the structure of the one that was given. -/
theorem yields_intern_same (e : Expr) (k : Kernel) :
    Yields E (intern e) k fun x _ => e.same x = true :=
  yields_intern (fun _ _ h => h) (Expr.same_refl e)

/-- What is made of a name has the structure of a symbol of that name. -/
theorem yields_makeSymbol_same (n : String) (d : Option Nat) (c : Bool) (k : Kernel) :
    Yields E (makeSymbol n) k fun x _ => (Expr.symbol n d c).same x = true := by
  have hintern : ∀ (i : Option Nat) (k : Kernel),
      Yields E (intern (.symbol n i true)) k fun x _ => (Expr.symbol n d c).same x = true := fun i k =>
    (yields_intern_same _ k).mono fun x _ h => by cases x <;> exact h
  unfold makeSymbol
  split
  next => exact hintern none k
  next =>
    refine Yields.bind (P := fun _ _ => True) ?_ fun i k' _ => hintern i k'
    unfold meetSymbol
    refine Yields.bind (P := fun _ _ => True) trivial fun _ _ _ => ?_
    split <;> exact trivial

end Kernel

end SymbolicAlgebra
