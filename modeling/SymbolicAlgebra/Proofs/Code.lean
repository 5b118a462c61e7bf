import Mathlib.Data.List.Lex
import Mathlib.Data.String.Basic
import Mathlib.Data.Sum.Order
import SymbolicAlgebra.Arithmetic
import SymbolicAlgebra.Proofs.KeyOrder

/-!
# Proofs/Code — keys as words

Keys compare like words over a linearly ordered alphabet.  The *code* of an expression is the word
of its key, with the complexity of each operator read off its name: it does not depend on the
definitions and flags that `Expr.bare` drops.  On regular expressions, whose operators have their
registered complexities, the order of keys is the order of codes (`le_eq_code`), and the order
of the terms of a sum is that of their term codes (`le_eq_termCode`).  Words are linearly ordered,
so that sorting by codes needs no further laws.

Codes tell expressions with exact literals apart up to definitions and flags (`code_injective`).
-/

namespace SymbolicAlgebra

/-! ## Words -/

theorem orderingOf_cons {α : Type} [LinearOrder α] (a b : α) (u v : List α) :
    orderingOf (a :: u) (b :: v) = (orderingOf a b).then (orderingOf u v) := by
  unfold orderingOf
  simp only [List.cons_lt_cons_iff]
  rcases lt_trichotomy a b with h | rfl | h
  · simp [h, Ordering.then]
  · simp
  · simp [h, h.not_gt, h.ne', Ordering.then]

theorem orderingOf_self {α : Type} [LT α] [DecidableLT α] [h : Std.Irrefl (α := α) (· < ·)] (a : α) :
    orderingOf a a = .eq := by
  simp [orderingOf, h.irrefl a]

namespace OrderKey

/-- A letter of a code: a place on the line, or a text. -/
abbrev Letter := (ℤ ×ₗ ℤ ×ₗ ℤ) ⊕ₗ String

/-- The letter of a whole number. -/
def whole (n : ℤ) : Letter := toLex (.inl (toLex (n, toLex (0, 0))))

/-- The letter of a double. -/
def double (x : Float) : Letter := toLex (.inl (Double.place (Double.unpacked x)))

/-- The letter of a text. -/
def text (s : String) : Letter := toLex (.inr s)

theorem orderingOf_whole (a b : ℤ) : orderingOf (whole a) (whole b) = orderingOf a b := by
  simp [orderingOf, whole, Prod.Lex.toLex_lt_toLex]

theorem orderingOf_natCast (m n : ℕ) : orderingOf (m : ℤ) (n : ℤ) = orderingOf m n := by
  simp [orderingOf]

theorem orderingOf_text (s t : String) : orderingOf (text s) (text t) = orderingOf s t := by
  simp [orderingOf, text]

theorem orderingOf_double {x y : Float} (hx : x.isNaN = false) (hy : y.isNaN = false) :
    orderingOf (double x) (double y) = orderingOf x y := by
  simp [orderingOf, double, Double.lt_iff hx hy, Double.lt_iff hy hx]

/-- The word of a list of texts: a letter before each of them and one for the end. -/
def textsCode : List String → List Letter
  | [] => [whole 0]
  | s :: rest => whole 1 :: text s :: textsCode rest

mutual

/-- The code of an expression, given the complexities of operators. -/
def code (κ : String → ℤ) : Expr → List Letter
  | .number v => [whole 0, double (part v.re), double (part v.im), text (numberText v)]
  | .symbol n _ _ => [whole 1, text n]
  | .application f ops _ _ =>
      whole 2 :: whole (κ f) :: text f :: whole ops.length :: codeAll κ ops
  | .error c ds _ => whole 3 :: text c :: textsCode ds

def codeAll (κ : String → ℤ) : List Expr → List Letter
  | [] => [whole 0]
  | e :: rest => whole 1 :: (code κ e ++ codeAll κ rest)

end

mutual

@[simp] theorem code_bare (κ : String → ℤ) : ∀ e : Expr, code κ e.bare = code κ e
  | .number _ => rfl
  | .symbol _ _ _ => rfl
  | .error _ _ _ => rfl
  | .application f ops d c => by
      rw [Expr.bare, code, code, codeAll_bareAll κ ops, Expr.bareAll_eq_map, List.length_map]

theorem codeAll_bareAll (κ : String → ℤ) : ∀ es : List Expr, codeAll κ (Expr.bareAll es) = codeAll κ es
  | [] => rfl
  | e :: rest => by rw [Expr.bareAll, codeAll, code_bare κ e, codeAll_bareAll κ rest, codeAll]

end

end OrderKey

/-! ## Regular expressions -/

/-- The complexity of an operator as it is registered now. -/
def DefinitionTable.registeredComplexity (t : DefinitionTable) (f : String) : ℤ :=
  t.complexity (.application f [] (t.functionNumber? f) true)

namespace Expr

mutual

/-- Whether an expression is free of errors, with proper literals, and every operator has the
complexity that it is registered with now. -/
def isRegular (t : DefinitionTable) : Expr → Bool
  | number v => v.isProper
  | symbol _ _ _ => true
  | application f ops d c =>
      t.complexity (application f ops d c) == t.registeredComplexity f && allRegular t ops
  | error _ _ _ => false

def allRegular (t : DefinitionTable) : List Expr → Bool
  | [] => true
  | e :: rest => isRegular t e && allRegular t rest

end

theorem allRegular_iff {t : DefinitionTable} {es : List Expr} :
    allRegular t es = true ↔ ∀ e ∈ es, e.isRegular t = true := by
  induction es with
  | nil => simp [allRegular]
  | cons e rest ih => simp [allRegular, ih]

mutual

theorem isProper_of_isRegular {t : DefinitionTable} : ∀ {e : Expr}, e.isRegular t = true →
    e.isOver Number.isProper = true
  | number _, h => h
  | symbol _ _ _, _ => rfl
  | application _ _ _ _, h => by
      rw [isRegular, Bool.and_eq_true] at h
      exact allProper_of_allRegular h.2
  | error _ _ _, h => h

theorem allProper_of_allRegular {t : DefinitionTable} : ∀ {es : List Expr},
    allRegular t es = true → allOver Number.isProper es = true
  | [], _ => rfl
  | e :: rest, h => by
      rw [allRegular, Bool.and_eq_true] at h
      rw [allOver, isProper_of_isRegular h.1, allProper_of_allRegular h.2]
      rfl

end

end Expr

namespace OrderKey

/-! ## Keys compare like codes -/

theorem isNaN_part (x : Scalar) : (part x).isNaN = false := by
  unfold part
  split
  next => decide
  next h => simpa [Double.isNaN] using h

variable {t : DefinitionTable}

mutual

/-- **Keys compare like codes**, whatever follows the codes. -/
theorem orderingOf_code : ∀ {x y : Expr}, x.isRegular t = true → y.isRegular t = true →
    ∀ u v, orderingOf (code t.registeredComplexity x ++ u) (code t.registeredComplexity y ++ v) =
      (compare (of t x) (of t y)).then (orderingOf u v)
  | .number a, y, _, hy, u, v => by
      cases y with
      | number b =>
          simp only [code, of, compare, List.cons_append, List.nil_append, orderingOf_cons,
            orderingOf_self, orderingOf_double (isNaN_part _) (isNaN_part _), orderingOf_text,
            Ordering.then_assoc, Ordering.eq_then]
      | symbol m _ _ => rfl
      | application g ys _ _ => rfl
      | error _ _ _ => cases hy
  | .symbol n _ _, y, _, hy, u, v => by
      cases y with
      | number b => rfl
      | symbol m _ _ =>
          simp only [code, of, compare, List.cons_append, List.nil_append, orderingOf_cons,
            orderingOf_self, orderingOf_text, Ordering.eq_then]
      | application g ys _ _ => rfl
      | error _ _ _ => cases hy
  | .application f xs d c, y, hx, hy, u, v => by
      cases y with
      | number b => rfl
      | symbol m _ _ => rfl
      | application g ys d' c' =>
          rw [Expr.isRegular, Bool.and_eq_true, beq_iff_eq] at hx hy
          simp only [code, of, compare, List.cons_append, orderingOf_cons,
            orderingOf_self, orderingOf_text, orderingOf_whole, hx.1, hy.1,
            orderingOf_natCast, orderingOf_codeAll hx.2 hy.2, Ordering.then_assoc,
            Ordering.eq_then]
      | error _ _ _ => cases hy
  | .error _ _ _, _, hx, _, _, _ => by cases hx

theorem orderingOf_codeAll : ∀ {xs ys : List Expr}, Expr.allRegular t xs = true →
    Expr.allRegular t ys = true → ∀ u v,
    orderingOf (codeAll t.registeredComplexity xs ++ u) (codeAll t.registeredComplexity ys ++ v) =
      (compareAll (ofAll t xs) (ofAll t ys)).then (orderingOf u v)
  | [], [], _, _, u, v => by
      simp only [codeAll, List.cons_append, List.nil_append, orderingOf_cons, orderingOf_self]
      rfl
  | [], _ :: _, _, _, _, _ => rfl
  | _ :: _, [], _, _, _, _ => rfl
  | x :: xs, y :: ys, hx, hy, u, v => by
      rw [Expr.allRegular, Bool.and_eq_true] at hx hy
      simp only [codeAll, ofAll, compareAll, List.cons_append, List.append_assoc, orderingOf_cons,
        orderingOf_self, orderingOf_code hx.1 hy.1, orderingOf_codeAll hx.2 hy.2,
        Ordering.then_assoc]
      rfl

end

/-- One key may stand before another if its code comes first. -/
theorem le_eq_code {x y : Expr} (hx : x.isRegular t = true) (hy : y.isRegular t = true) :
    le (of t x) (of t y) =
      decide (code t.registeredComplexity x ≤ code t.registeredComplexity y) := by
  have h := orderingOf_code hx hy [] []
  rw [List.append_nil, List.append_nil, orderingOf_self, Ordering.then_eq] at h
  rw [le, ← h, orderingOf]
  rcases lt_trichotomy (code t.registeredComplexity x) (code t.registeredComplexity y) with
    hlt | heq | hgt
  · simp [hlt, hlt.le]
  · simp [heq]
  · simp [hgt, hgt.not_gt, hgt.not_ge]

/-! ## Codes tell expressions apart -/

theorem whole_inj {a b : ℤ} : whole a = whole b ↔ a = b := by simp [whole]

theorem text_inj {s t : String} : text s = text t ↔ s = t := by simp [text]

mutual

/-- **Codes tell expressions with exact literals apart**, up to definitions and flags. -/
theorem code_append_injective {κ : String → ℤ} : ∀ {x y : Expr}, x.isExact = true →
    y.isExact = true → ∀ {u v}, code κ x ++ u = code κ y ++ v → x.bare = y.bare ∧ u = v
  | .number a, y, hx, hy, u, v, h => by
      cases y with
      | number b =>
          simp only [code, List.cons_append, List.nil_append, List.cons.injEq, text_inj] at h
          rw [numberText_injective hx hy h.2.2.2.1]
          exact ⟨rfl, h.2.2.2.2⟩
      | error _ _ _ => cases hy
      | _ => simp [code, whole_inj] at h
  | .symbol n _ _, y, _, hy, u, v, h => by
      cases y with
      | symbol m _ _ =>
          simp only [code, List.cons_append, List.nil_append, List.cons.injEq, text_inj] at h
          rw [Expr.bare, Expr.bare, h.2.1]
          exact ⟨rfl, h.2.2⟩
      | error _ _ _ => cases hy
      | _ => simp [code, whole_inj] at h
  | .application f xs d c, y, hx, hy, u, v, h => by
      cases y with
      | application g ys d' c' =>
          simp only [code, List.cons_append, List.cons.injEq, text_inj] at h
          obtain ⟨hoperands, hrest⟩ := codeAll_append_injective hx hy h.2.2.2.2
          rw [Expr.bare, Expr.bare, h.2.2.1, hoperands]
          exact ⟨rfl, hrest⟩
      | error _ _ _ => cases hy
      | _ => simp [code, whole_inj] at h
  | .error _ _ _, _, hx, _, _, _, _ => by cases hx

theorem codeAll_append_injective {κ : String → ℤ} : ∀ {xs ys : List Expr},
    Expr.allOver Number.isExact xs = true → Expr.allOver Number.isExact ys = true →
    ∀ {u v}, codeAll κ xs ++ u = codeAll κ ys ++ v → Expr.bareAll xs = Expr.bareAll ys ∧ u = v
  | [], [], _, _, u, v, h => ⟨rfl, by simpa [codeAll] using h⟩
  | [], _ :: _, _, _, _, _, h => by simp [codeAll, whole_inj] at h
  | _ :: _, [], _, _, _, _, h => by simp [codeAll, whole_inj] at h
  | x :: xs, y :: ys, hx, hy, u, v, h => by
      rw [Expr.allOver, Bool.and_eq_true] at hx hy
      simp only [codeAll, List.cons_append, List.append_assoc, List.cons.injEq, true_and] at h
      obtain ⟨hhead, hrest⟩ := code_append_injective hx.1 hy.1 h
      obtain ⟨htail, hrest⟩ := codeAll_append_injective hx.2 hy.2 hrest
      exact ⟨by rw [Expr.bareAll, Expr.bareAll, hhead, htail], hrest⟩

end

theorem code_injective {κ : String → ℤ} {x y : Expr} (hx : x.isExact = true)
    (hy : y.isExact = true) (h : code κ x = code κ y) : x.bare = y.bare :=
  (code_append_injective hx hy (u := []) (v := []) (by rw [h])).1

end OrderKey

/-! ## The terms of a sum -/

namespace Kernel

open OrderKey

/-- Whether the exponents of the bases of a monomial are finite. -/
def areFinite (factors : List (Expr × Float)) : Bool := factors.all fun q => q.2.isFinite

/-- The code of bases with their exponents: higher exponents come first. -/
def factorsCode (κ : String → ℤ) : List (Expr × Float) → List Letter
  | [] => [whole 0]
  | (base, x) :: rest => whole 1 :: (code κ base ++ double (-x) :: factorsCode κ rest)

/-- The code of a monomial with given bases: higher degrees come first. -/
def termCode (κ : String → ℤ) (factors : List (Expr × Float)) : List Letter :=
  double (-degreeOf factors) :: factorsCode κ factors

theorem lt_eq_orderingOf {α : Type} [LT α] [DecidableLT α] (x y : α) :
    decide (x < y) = (orderingOf x y == .lt) := by
  unfold orderingOf
  split
  next h => simp [h]
  next h => split <;> simp [h]

theorem beq_eq_orderingOf {x y : Float} (hx : x.isNaN = false) (hy : y.isNaN = false) :
    (x == y) = (orderingOf x y == .eq) := by
  rw [Bool.eq_iff_iff, Double.beq_iff hx hy, ← orderingOf_double hx hy, orderingOf, beq_iff_eq]
  rcases lt_trichotomy (Double.place (Double.unpacked x)) (Double.place (Double.unpacked y)) with
    h | h | h
  · simp [double, h, h.ne]
  · simp [double, h]
  · simp [double, h, h.ne', h.not_gt]

theorem isNaN_degreeOf {factors : List (Expr × Float)} (h : areFinite factors = true) :
    (degreeOf factors).isNaN = false := by
  unfold degreeOf
  rw [areFinite, List.all_eq_true] at h
  refine List.foldlRecOn (motive := fun d => Float.isNaN d = false) factors _ (by decide) ?_
  intro d hd q hq
  refine Double.isNaN_add hd ?_
  split
  · decide
  · exact h q hq

variable {t : DefinitionTable}

theorem factorsBefore_eq : ∀ {xs ys : List (Expr × Float)}, areFinite xs = true →
    areFinite ys = true → (∀ q ∈ xs, q.1.isRegular t = true) → (∀ q ∈ ys, q.1.isRegular t = true) →
    TermKey.factorsBefore (xs.map fun q => (OrderKey.of t q.1, -q.2))
        (ys.map fun q => (OrderKey.of t q.1, -q.2)) =
      (orderingOf (factorsCode t.registeredComplexity xs)
        (factorsCode t.registeredComplexity ys) == .lt)
  | [], [], _, _, _, _ => by
      rw [orderingOf_self]
      rfl
  | [], _ :: _, _, _, _, _ => rfl
  | _ :: _, [], _, _, _, _ => rfl
  | (b, x) :: xs, (c, y) :: ys, hx, hy, hbs, hcs => by
      rw [areFinite, List.all_cons, Bool.and_eq_true] at hx hy
      rw [List.forall_mem_cons] at hbs hcs
      have hnx : (-x).isNaN = false := by rw [Double.isNaN_neg, Double.isNaN_of_isFinite hx.1]
      have hny : (-y).isNaN = false := by rw [Double.isNaN_neg, Double.isNaN_of_isFinite hy.1]
      have hrest := factorsBefore_eq hx.2 hy.2 hbs.2 hcs.2
      simp only [factorsCode, orderingOf_cons, orderingOf_self, Ordering.eq_then,
        orderingOf_code hbs.1 hcs.1, orderingOf_double hnx hny]
      rw [List.map_cons, List.map_cons, TermKey.factorsBefore]
      cases (OrderKey.of t b).compare (OrderKey.of t c) with
      | lt => rfl
      | gt => rfl
      | eq =>
          simp only [Ordering.eq_then]
          rw [hrest, beq_eq_orderingOf hnx hny, lt_eq_orderingOf]
          cases orderingOf (-x) (-y) <;> rfl

theorem before_eq {xs ys : List (Expr × Float)} (hx : areFinite xs = true)
    (hy : areFinite ys = true) (hbs : ∀ q ∈ xs, q.1.isRegular t = true)
    (hcs : ∀ q ∈ ys, q.1.isRegular t = true) :
    TermKey.before ⟨-degreeOf xs, xs.map fun q => (OrderKey.of t q.1, -q.2)⟩
        ⟨-degreeOf ys, ys.map fun q => (OrderKey.of t q.1, -q.2)⟩ =
      (orderingOf (termCode t.registeredComplexity xs)
        (termCode t.registeredComplexity ys) == .lt) := by
  have hnx : (-degreeOf xs).isNaN = false := by rw [Double.isNaN_neg, isNaN_degreeOf hx]
  have hny : (-degreeOf ys).isNaN = false := by rw [Double.isNaN_neg, isNaN_degreeOf hy]
  simp only [TermKey.before, termCode, orderingOf_cons, orderingOf_double hnx hny]
  rw [factorsBefore_eq hx hy hbs hcs, beq_eq_orderingOf hnx hny, lt_eq_orderingOf]
  cases orderingOf (-degreeOf xs) (-degreeOf ys) <;> rfl

/-- **Terms with finite exponents are ordered like their codes.** -/
theorem le_eq_termCode {xs ys : List (Expr × Float)} (hx : areFinite xs = true)
    (hy : areFinite ys = true) (hbs : ∀ q ∈ xs, q.1.isRegular t = true)
    (hcs : ∀ q ∈ ys, q.1.isRegular t = true) :
    TermKey.le ⟨-degreeOf xs, xs.map fun q => (OrderKey.of t q.1, -q.2)⟩
        ⟨-degreeOf ys, ys.map fun q => (OrderKey.of t q.1, -q.2)⟩ =
      decide (termCode t.registeredComplexity xs ≤ termCode t.registeredComplexity ys) := by
  rw [TermKey.le, before_eq hy hx hcs hbs, ← lt_eq_orderingOf, ← decide_not, decide_eq_decide]
  exact not_lt

end Kernel

end SymbolicAlgebra
