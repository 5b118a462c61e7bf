import Mathlib.Algebra.GroupWithZero.Nat
import SymbolicAlgebra.Proofs.Structure

/-!
# Proofs/Splicing — what an expression contributes to a list of operands

A sequence among operands contributes its own operands, any other expression itself.  What may be taken
out of an expression when something is built are the operands of sequences and negations: the expression
is *tame* if these are single ones, and tame again, and if it is no number without an opposite.
`Expr.Spreads n` says that an expression is tame and contributes `n` operands.
-/

namespace SymbolicAlgebra

/-! ## Numbers that have an opposite -/

/-- Whether the opposite of a scalar is there: that of a decimal is rounded, which may fail. -/
def Scalar.isNegatable : Scalar → Bool
  | .big _ _ => false
  | _ => true

theorem Scalar.isNegatable_of_same {a b : Scalar} (h : a.same b = true) :
    b.isNegatable = a.isNegatable := by
  cases a <;> cases b <;> simp_all [same, isNegatable]

theorem Scalar.neg_isNegatable {a : Scalar} (h : a.isNegatable = true) :
    ∃ b, a.neg = .ok b ∧ b.isNegatable = true := by
  cases a with
  | exact q => exact ⟨_, rfl, rfl⟩
  | big d p => cases h
  | machine x => exact ⟨_, rfl, rfl⟩

/-- A kind of scalars with all exact numbers and doubles, which equal values and opposites do not
leave. -/
structure Scalar.Negatable (p : Scalar → Bool) : Prop where
  exact : ∀ q, p (.exact q) = true
  machine : ∀ x, p (.machine x) = true
  same : ∀ {a b : Scalar}, a.same b = true → p b = p a
  neg : ∀ {a : Scalar}, p a = true → ∃ b, a.neg = .ok b ∧ p b = true

theorem Scalar.negatable_isNegatable : Negatable isNegatable where
  exact _ := rfl
  machine _ := rfl
  same := isNegatable_of_same
  neg := neg_isNegatable

namespace Number

/-- Whether both parts of a number are of a kind. -/
def isOf (p : Scalar → Bool) (v : Number) : Bool := p v.re && p v.im

/-- Whether the opposites of both parts of a number are there. -/
def isNegatable (v : Number) : Bool := v.re.isNegatable && v.im.isNegatable

section Kinds

variable {p : Scalar → Bool} (hp : Scalar.Negatable p)

include hp

theorem isOf_real (x : Scalar) : (real x).isOf p = p x := by
  rw [isOf, im, Scalar.zero, hp.exact, Bool.and_true, re]

theorem isOf_of_same {v w : Number} (h : v.same w = true) : w.isOf p = v.isOf p := by
  cases v with
  | real x =>
      cases w with
      | real y => rw [isOf_real hp, isOf_real hp, hp.same h]
      | complex _ _ => cases h
  | complex x y =>
      cases w with
      | real _ => cases h
      | complex z w =>
          rw [same, Bool.and_eq_true] at h
          simp only [isOf, re, im, hp.same h.1, hp.same h.2]

theorem isOf_ofParts {x y : Scalar} (hx : p x = true) (hy : p y = true) :
    (ofParts x y).isOf p = true := by
  rw [ofParts]
  split
  · rw [isOf_real hp, hx]
  · exact Bool.and_eq_true_iff.2 ⟨hx, hy⟩

/-- **A number has an opposite if its parts have**, which is of the same kind. -/
theorem exists_neg {v : Number} (h : v.isOf p = true) :
    ∃ w, v.neg = .ok w ∧ w.isOf p = true := by
  rw [isOf, Bool.and_eq_true] at h
  cases v with
  | real x =>
      obtain ⟨y, hy, hyp⟩ := hp.neg h.1
      refine ⟨.real y, ?_, by rw [isOf_real hp, hyp]⟩
      rw [neg, show x.neg = .ok y from hy]
      rfl
  | complex x y =>
      obtain ⟨x', hx, hxp⟩ := hp.neg h.1
      obtain ⟨y', hy, hyp⟩ := hp.neg h.2
      refine ⟨.ofParts x' y', ?_, isOf_ofParts hp hxp hyp⟩
      rw [neg, show x.neg = .ok x' from hx, show y.neg = .ok y' from hy]
      rfl

end Kinds

theorem isNegatable_real (x : Scalar) : (real x).isNegatable = x.isNegatable := Bool.and_true _

theorem isNegatable_of_same {v w : Number} (h : v.same w = true) :
    w.isNegatable = v.isNegatable := isOf_of_same Scalar.negatable_isNegatable h

theorem isNegatable_ofParts {x y : Scalar} (hx : x.isNegatable = true) (hy : y.isNegatable = true) :
    (ofParts x y).isNegatable = true := isOf_ofParts Scalar.negatable_isNegatable hx hy

theorem neg_isNegatable {v : Number} (h : v.isNegatable = true) :
    ∃ w, v.neg = .ok w ∧ w.isNegatable = true := exists_neg Scalar.negatable_isNegatable h

/-- The quotient of exact numbers is there, and exact; over zero it is not a number. -/
theorem div_of_isExact {a b : Number} (ha : a.isExact = true) (hb : b.isExact = true) :
    ∃ c, a.div b = .ok c ∧ (c = notANumber ∨ ∃ x y : ℚ, c = .ofParts (.exact x) (.exact y)) := by
  have hcomplex : ∀ a b : Number, a.isExact = true → b.isExact = true → ∃ c,
      complexBinary .div a b = .ok c ∧
        (c = notANumber ∨ ∃ x y : ℚ, c = .ofParts (.exact x) (.exact y)) := by
    intro a b ha hb
    obtain ⟨p, q, hp, hq⟩ : ∃ p q, a.re = .exact p ∧ a.im = .exact q := by
      rcases exact_cases ha with ⟨p, rfl⟩ | ⟨p, q, rfl⟩
      · exact ⟨p, 0, rfl, rfl⟩
      · exact ⟨p, q, rfl, rfl⟩
    obtain ⟨r, s, hr, hs⟩ : ∃ r s, b.re = .exact r ∧ b.im = .exact s := by
      rcases exact_cases hb with ⟨r, rfl⟩ | ⟨r, s, rfl⟩
      · exact ⟨r, 0, rfl, rfl⟩
      · exact ⟨r, s, rfl, rfl⟩
    by_cases hzero : r * r + s * s = 0
    · refine ⟨notANumber, ?_, .inl rfl⟩
      simp [complexBinary, hr, hs, Scalar.mul, Scalar.add, Scalar.binary, Operation.divides,
        Operation.onRat, Scalar.isZero, hzero, bind, Except.bind, pure, Except.pure]
    · refine ⟨.ofParts (.exact ((p * r + q * s) / (r * r + s * s)))
        (.exact ((q * r - p * s) / (r * r + s * s))), ?_, .inr ⟨_, _, rfl⟩⟩
      simp [complexBinary, hp, hq, hr, hs, Scalar.mul, Scalar.add, Scalar.sub, Scalar.div,
        Scalar.binary, Operation.divides, Operation.onRat, Scalar.isZero, hzero, bind, Except.bind,
        pure, Except.pure]
  rcases exact_cases ha with ⟨p, rfl⟩ | ⟨x, y, rfl⟩ <;>
    rcases exact_cases hb with ⟨q, rfl⟩ | ⟨z, w, rfl⟩
  · by_cases hq : q = 0
    · exact ⟨notANumber, by simp [div, binary, ofRat, Scalar.binary, Operation.divides, Scalar.isZero,
        hq, notANumber, bind, Except.bind, pure, Except.pure], .inl rfl⟩
    · exact ⟨_, div_ofRat p hq, .inr ⟨p / q, 0, rfl⟩⟩
  all_goals exact hcomplex _ _ ha hb

theorem exists_div {p : Scalar → Bool} (hp : Scalar.Negatable p) {a b : Number}
    (ha : a.isExact = true) (hb : b.isExact = true) : ∃ c, a.div b = .ok c ∧ c.isOf p = true := by
  obtain ⟨c, hc, rfl | ⟨x, y, rfl⟩⟩ := div_of_isExact ha hb
  · exact ⟨_, hc, by rw [notANumber, isOf_real hp]; exact hp.machine _⟩
  · exact ⟨_, hc, isOf_ofParts hp (hp.exact x) (hp.exact y)⟩

theorem div_isNegatable {a b : Number} (ha : a.isExact = true) (hb : b.isExact = true) :
    ∃ c, a.div b = .ok c ∧ c.isNegatable = true := exists_div Scalar.negatable_isNegatable ha hb

end Number

/-! ## Operands that may be taken out -/

namespace Expr

/-- Whether the operands of an operator may be taken out when something is built. -/
def isOpened (f : String) : Bool := f == "Sequence" || f == "Negate"

mutual

/-- Whether a number has an opposite, and the operands that may be taken out are tame and no
sequences. -/
def isTame : Expr → Bool
  | number v => v.isNegatable
  | application f ops _ _ => !isOpened f || allTame ops
  | _ => true

def allTame : List Expr → Bool
  | [] => true
  | e :: rest => isTame e && isLeaf none e && allTame rest

end

/-- A tame expression that contributes itself to a list. -/
structure IsSingle (e : Expr) : Prop where
  tame : e.isTame = true
  leaf : e.isLeaf none = true

/-- A tame expression that contributes `n` operands to a list. -/
structure Spreads (n : Nat) (e : Expr) : Prop where
  tame : e.isTame = true
  count : (leaves none e).length = n

theorem allTame_iff {es : List Expr} : allTame es = true ↔ ∀ e ∈ es, IsSingle e := by
  induction es with
  | nil => simp [allTame]
  | cons e rest ih =>
      rw [allTame, Bool.and_eq_true, Bool.and_eq_true, ih, List.forall_mem_cons]
      exact and_congr_left fun _ => ⟨fun h => ⟨h.1, h.2⟩, fun h => ⟨h.tame, h.leaf⟩⟩

theorem isTame_application {f : String} {ops : List Expr} {d : Option Nat} {c : Bool} :
    (application f ops d c).isTame = true ↔ (isOpened f = true → ∀ e ∈ ops, IsSingle e) := by
  rw [isTame, Bool.or_eq_true, allTame_iff]
  cases isOpened f <;> simp

theorem IsSingle.spreads {e : Expr} (h : IsSingle e) : Spreads 1 e :=
  ⟨h.tame, by rw [leaves_of_isLeaf h.leaf]; rfl⟩

theorem isSingle_of_isError {e : Expr} (h : e.isError = true) : IsSingle e := by
  cases e with
  | error a b x => exact ⟨rfl, rfl⟩
  | _ => cases h

theorem isLeaf_of_same {a : Option String} {e x : Expr} (h : e.same x = true) :
    x.isLeaf a = e.isLeaf a := by
  cases e <;> cases x <;> simp_all [same, isLeaf]

theorem congruence_isTame :
    Congruence (fun e x => x.isTame = e.isTame) fun xs ys => allTame ys = allTame xs where
  number h := Number.isNegatable_of_same h
  symbol := rfl
  application _ h := by rw [isTame, isTame, h]
  error _ := rfl
  nil := rfl
  cons hsame hx hxs := by rw [allTame, allTame, hx, isLeaf_of_same hsame, hxs]

theorem isTame_of_same {e x : Expr} (h : e.same x = true) : x.isTame = e.isTame :=
  congruence_isTame.of_same h

theorem congruence_length_leaves (a : Option String) :
    Congruence (fun e x => (leaves a x).length = (leaves a e).length)
      fun xs ys => (flatten a ys).length = (flatten a xs).length where
  number _ := rfl
  symbol := rfl
  application _ h := by
    rw [leaves, leaves]
    split
    · exact h
    · rfl
  error _ := rfl
  nil := rfl
  cons _ hx hxs := by rw [flatten, flatten, List.length_append, List.length_append, hx, hxs]

theorem length_leaves_of_same {a : Option String} {e x : Expr} (h : e.same x = true) :
    (leaves a x).length = (leaves a e).length :=
  (congruence_length_leaves a).of_same h

theorem Spreads.of_same {n : Nat} {e x : Expr} (he : Spreads n e) (h : e.same x = true) :
    Spreads n x :=
  ⟨(isTame_of_same h).trans he.tame, (length_leaves_of_same h).trans he.count⟩

theorem operator_of_same {e x : Expr} (h : e.same x = true) : x.operator = e.operator := by
  cases e <;> cases x <;> simp_all [same, operator]

/-- What an application of an operator to single operands contributes to a list. -/
theorem spreads_application {f : String} {ops : List Expr} {d : Option Nat} {c : Bool}
    (hops : isOpened f = true → ∀ e ∈ ops, IsSingle e) :
    Spreads (if f = "Sequence" then ops.length else 1) (application f ops d c) := by
  refine ⟨isTame_application.2 hops, ?_⟩
  rw [leaves]
  by_cases hf : f = "Sequence"
  · subst hf
    rw [if_pos (by decide), if_pos rfl, flatten_of_isLeaf fun e he => (hops rfl e he).leaf]
  · have hsplice : isSpliced none f = false := by simp [isSpliced, hf]
    rw [if_neg hf, hsplice]
    rfl

/-- What is spliced into a list is single. -/
theorem isSingle_of_mem_flatten {a : Option String} (ha : ∀ f, a = some f → isOpened f = true)
    {es : List Expr} (hes : ∀ e ∈ es, e.isTame = true) : ∀ e ∈ flatten a es, IsSingle e := by
  intro e he
  refine ⟨forall_flatten (P := fun e => e.isTame = true) (fun f ops d c hf htame x hx => ?_) hes e he, ?_⟩
  · refine (isTame_application.1 htame ?_ x hx).tame
    rw [isSpliced, Bool.or_eq_true, beq_iff_eq, beq_iff_eq] at hf
    rcases hf with rfl | hf
    · rfl
    · exact ha f hf
  · exact isLeaf_none (isLeaf_of_mem_flatten he)

theorem length_flatten {counts : List Nat} {es : List Expr} (h : List.Forall₂ Spreads counts es) :
    (flatten none es).length = counts.sum := by
  induction h with
  | nil => rfl
  | cons he _ ih => rw [flatten, List.length_append, he.count, ih, List.sum_cons]

theorem isTame_of_spreads {counts : List Nat} {es : List Expr} (h : List.Forall₂ Spreads counts es) :
    ∀ e ∈ es, e.isTame = true := by
  induction h with
  | nil => simp
  | cons he _ ih => exact List.forall_mem_cons.2 ⟨he.tame, ih⟩

end Expr

end SymbolicAlgebra
