import SymbolicAlgebra.Proofs.Arrangement

/-!
# Proofs/NormalProduct — products that are multiplied once more

A product is written as a coefficient and powers with different bases, in order.  Such a list of
powers is *normal* if a power with exponent one, which is written as its base alone, has an *atom*
for a base: one that does not come apart as a factor.  A normal product is collected into the powers
that it was written from, so that multiplying it once more gives it back (`product_productOf`).
Products are normal if they are *plain*: no base that comes apart is left with exponent one
(`product_normal`).
-/

namespace SymbolicAlgebra

/-- Whether the operands of a power are a base and an exponent that is no literal. -/
def Expr.hasOpenExponent : List Expr → Bool
  | _ :: .number _ :: _ => false
  | _ :: _ :: _ => true
  | _ => false

/-- Whether an expression is a factor that does not come apart: no number, product, negation or
sequence, and no power with a literal exponent. -/
def Expr.isAtom : Expr → Bool
  | .number _ => false
  | .symbol _ _ _ => true
  | .application f ops _ _ =>
      !(f == "Multiply" || f == "Negate" || f == "Sequence") &&
        (f != "Power" || hasOpenExponent ops)
  | .error _ _ _ => false

namespace Kernel

open OrderKey

/-! ## Atoms -/

theorem hasOpenExponent_bare (ops : List Expr) :
    Expr.hasOpenExponent (ops.map Expr.bare) = Expr.hasOpenExponent ops := by
  rcases ops with _ | ⟨x, _ | ⟨y, rest⟩⟩
  · rfl
  · rfl
  · cases y <;> rfl

@[simp] theorem isAtom_bare (e : Expr) : e.bare.isAtom = e.isAtom := by
  cases e with
  | application f ops d c =>
      rw [Expr.bare_application, Expr.isAtom, Expr.isAtom, hasOpenExponent_bare]
  | _ => rfl

theorem isAtom_application {f : String} {ops : List Expr} {d : Option Nat} {c : Bool}
    (h : (Expr.application f ops d c).isAtom = true) :
    f ≠ "Multiply" ∧ f ≠ "Negate" ∧ f ≠ "Sequence" := by
  rw [Expr.isAtom, Bool.and_eq_true] at h
  simpa [not_or, and_assoc] using h.1

/-- An atom is the only power that it contributes. -/
theorem pieces_of_isAtom {e : Expr} (h : e.isAtom = true) : pieces e = [.power e .one] := by
  cases e with
  | number v => cases h
  | symbol n d c => rfl
  | error a b x => cases h
  | application f ops d c =>
      obtain ⟨hm, hn, -⟩ := isAtom_application h
      rw [Expr.isAtom, Bool.and_eq_true] at h
      rw [pieces, if_neg (by simpa using hn), if_neg (by simpa using hm)]
      split
      next hp =>
        rw [beq_iff_eq] at hp
        subst hp
        rcases ops with _ | ⟨x, _ | ⟨y, rest⟩⟩
        · simp [Expr.hasOpenExponent] at h
        · simp [Expr.hasOpenExponent] at h
        · cases y <;> simp_all [powerPiece, Expr.hasOpenExponent]
      next => rfl

theorem isLeaf_of_isAtom {e : Expr} {a : String} (h : e.isAtom = true)
    (ha : a = "Multiply" ∨ e.isApplicationOf a = false) : e.isLeaf (some a) = true := by
  cases e with
  | application f ops d c =>
      obtain ⟨hm, -, hs⟩ := isAtom_application h
      have hf : f ≠ a := by
        rcases ha with rfl | ha
        · exact hm
        · simpa [Expr.isApplicationOf] using ha
      have hspliced : ¬Expr.isSpliced (some a) f = true := by
        rw [Expr.isSpliced_some]
        rintro (h | h)
        · exact hs h
        · exact hf h
      simpa [Expr.isLeaf] using hspliced
  | _ => rfl

/-- The bases of an atom as a monomial. -/
theorem factorOf_of_isAtom {e : Expr} (h : e.isAtom = true) : factorOf e = .ok (e, 1) := by
  unfold factorOf
  split
  next hp =>
    cases e with
    | application f ops d c =>
        obtain rfl : f = "Power" := by simpa [Expr.operator] using hp
        rw [Expr.isAtom, Bool.and_eq_true] at h
        rcases ops with _ | ⟨x, _ | ⟨y, rest⟩⟩
        · simp [Expr.hasOpenExponent] at h
        · simp [Expr.hasOpenExponent] at h
        · cases y <;> simp_all [Expr.operands, Expr.hasOpenExponent]
    | _ => simp [Expr.operator] at hp
  next => rfl

/-! ## Zero, one and minus one -/

theorem eq_zero_of_isZero {n : Number} (hn : n.isProper = true) (h : n.isZero = true) :
    n = .zero := by
  match n, hn with
  | .real (.exact q), _ =>
      obtain rfl : q = 0 := by simpa [Number.isZero, Scalar.isZero] using h
      rfl
  | .complex _ _, _ => cases h

theorem eq_one_of_isOne {n : Number} (hn : n.isProper = true) (h : n.isOne = true) : n = .one := by
  match n, hn with
  | .real (.exact q), _ =>
      obtain rfl : q = 1 := by simpa [Number.isOne, Scalar.isOne] using h
      rfl
  | .complex _ _, _ => cases h

theorem eq_negativeOne_of_isNegativeOne {n : Number} (hn : n.isProper = true)
    (h : n.isNegativeOne = true) : n = .negativeOne := by
  match n, hn with
  | .real (.exact q), _ =>
      obtain rfl : q = -1 := by simpa [Number.isNegativeOne, Scalar.isNegativeOne] using h
      rfl
  | .complex _ _, _ => cases h

/-- A number with exponent one goes into the coefficient. -/
theorem foldedPower_one (precision : Nat) {b : Number} (hb : b.isExact = true) :
    ∃ v, foldedPower precision (.number b) .one = .ok (some v) := by
  have hpow : ∃ v, b.pow precision .one = .ok v ∧ v.isExact = true := by
    rcases Number.exact_cases hb with ⟨q, rfl⟩ | ⟨x, y, rfl⟩
    · exact ⟨_, Number.pow_ofRat precision (n := 1) (by simp), rfl⟩
    · obtain ⟨v, hv, hproper⟩ := Number.mul_isProper (a := .one) rfl hb
      obtain ⟨w, hw, -⟩ := Number.mul_isProper hb hb
      refine ⟨v, ?_, Number.isExact_of_isProper hproper⟩
      have hwhole : (Number.complex (.exact x) (.exact y)).pow precision .one =
          Number.powInt (.complex (.exact x) (.exact y)) 1 := rfl
      have hlast : ∀ r a, Number.powNatFrom r a 0 = .ok r := fun r a => by simp [Number.powNatFrom]
      rw [hwhole, Number.powInt, Int.natAbs_one, Number.powNatFrom]
      simp [hv, hw, hlast, bind, Except.bind, pure, Except.pure]
  obtain ⟨v, hv, hexact⟩ := hpow
  exact ⟨v, by simp [foldedPower, exactPower?, hv, hexact, bind, Except.bind, pure, Except.pure]⟩

/-! ## Pure expressions -/

/-- A bare expression with proper literals. -/
structure IsPure (e : Expr) : Prop where
  isBare : e.bare = e
  proper : e.isOver Number.isProper = true

theorem IsPure.exact {e : Expr} (h : IsPure e) : e.isExact = true :=
  Expr.isOver_mono (fun _ => Number.isExact_of_isProper) h.proper

theorem IsPure.same_eq_false {x y : Expr} (hx : IsPure x) (hy : IsPure y) (h : x ≠ y) :
    x.same y = false := by
  rw [← Bool.not_eq_true, Expr.same_iff hx.exact, hx.isBare, hy.isBare]
  exact h

theorem isPure_bare {e : Expr} (h : e.isOver Number.isProper = true) : IsPure e.bare :=
  ⟨Expr.bare_bare e, by rw [Expr.isOver_bare, h]⟩

theorem IsPure.operand {f : String} {ops : List Expr} {d : Option Nat} {c : Bool}
    (h : IsPure (.application f ops d c)) : ∀ x ∈ ops, IsPure x := by
  have hops : ops.map Expr.bare = ops := by
    have hbare := h.isBare
    rw [Expr.bare_application, Expr.application.injEq] at hbare
    exact hbare.2.1
  intro x hx
  refine ⟨?_, Expr.allOver_iff.1 h.proper x hx⟩
  rw [← List.map_id ops, List.map_map] at hops
  exact List.map_inj_left.1 hops x hx

/-! ## Normal powers -/

/-- A power that stands as a factor of a product: it did not go into the coefficient, and it is
written so that it comes apart into itself. -/
structure IsFactor (precision : Nat) (q : Expr × Number) : Prop where
  pure : IsPure q.1
  proper : q.2.isProper = true
  nonzero : q.2.isZero = false
  unfolded : foldedPower precision q.1 q.2 = .ok none
  atom : q.2.isOne = true → q.1.isAtom = true

/-- Powers written down. -/
def factorsFrom (l : Tally) : List Expr := l.map fun q => writtenPower q.1 q.2

/-- The powers of a product, with different bases and in order. -/
structure IsNormal (κ : String → ℤ) (precision : Nat) (l : Tally) : Prop where
  factors : ∀ q ∈ l, IsFactor precision q
  ordered : l.Pairwise fun x y => code κ x.1 < code κ y.1

variable {κ : String → ℤ} {precision : Nat}

namespace IsFactor

variable {q : Expr × Number} (h : IsFactor precision q)

include h

theorem written : IsPure (writtenPower q.1 q.2) := by
  unfold writtenPower
  split
  next => exact h.pure
  next =>
    refine ⟨by simp [h.pure.isBare], ?_⟩
    simp [Expr.isOver, Expr.allOver, h.pure.proper, h.proper]

theorem pieces : pieces (writtenPower q.1 q.2) = [.power q.1 q.2] := by
  unfold writtenPower
  split
  next hone => rw [pieces_of_isAtom (h.atom hone), ← eq_one_of_isOne h.proper hone]
  next => rfl

theorem isLeaf : (writtenPower q.1 q.2).isLeaf (some "Multiply") = true := by
  unfold writtenPower
  split
  next hone => exact isLeaf_of_isAtom (h.atom hone) (.inl rfl)
  next => rfl

/-- A factor is no number, no product and no negation. -/
theorem operator : (writtenPower q.1 q.2).isNumber = false ∧
    (writtenPower q.1 q.2).isApplicationOf "Multiply" = false ∧
    (writtenPower q.1 q.2).isApplicationOf "Negate" = false := by
  unfold writtenPower
  split
  next hone =>
    have hatom := h.atom hone
    cases hq : q.1 with
    | number v =>
        rw [hq] at hatom
        cases hatom
    | symbol n d c => exact ⟨rfl, rfl, rfl⟩
    | error a b x => exact ⟨rfl, rfl, rfl⟩
    | application f ops d c =>
        rw [hq] at hatom
        obtain ⟨hm, hn, -⟩ := isAtom_application hatom
        exact ⟨rfl, by simpa [Expr.isApplicationOf] using hm,
          by simpa [Expr.isApplicationOf] using hn⟩
  next => exact ⟨rfl, rfl, rfl⟩

end IsFactor

/-- A new expression is counted at the end. -/
theorem tally_of_new {e : Expr} {n : Number} (hn : n.isProper = true) : ∀ {l : Tally},
    (∀ q ∈ l, q.1.same e = false) → tally e n l = .ok (l ++ [(e, n)])
  | [], _ => by
      rw [tally, Number.zero_add_of_isProper hn]
      rfl
  | (x, m) :: rest, hl => by
      rw [List.forall_mem_cons] at hl
      rw [tally, hl.1, tally_of_new hn hl.2]
      rfl

/-- **Normal powers are collected from the factors that they are written as.** -/
theorem multiplyAll_factorsFrom : ∀ {l acc : Tally} {c : Number}, (∀ q ∈ l, IsFactor precision q) →
    (∀ q ∈ acc, IsPure q.1) → (acc ++ l).Pairwise (fun x y => x.1 ≠ y.1) →
    multiplyAll (piecesAll (factorsFrom l)) ⟨c, acc⟩ = .ok ⟨c, acc ++ l⟩
  | [], acc, c, _, _, _ => by simp [factorsFrom, piecesAll]
  | q :: rest, acc, c, hl, hacc, hdistinct => by
      rw [List.forall_mem_cons] at hl
      have hnew : ∀ x ∈ acc, x.1.same q.1 = false := fun x hx =>
        (hacc x hx).same_eq_false hl.1.pure
          ((List.pairwise_append.1 hdistinct).2.2 x hx q (by simp))
      have hacc' : ∀ x ∈ acc ++ [q], IsPure x.1 :=
        List.forall_mem_append.2 ⟨hacc, by simpa using hl.1.pure⟩
      have hrest := multiplyAll_factorsFrom (c := c) hl.2 hacc' (by simpa using hdistinct)
      have hpieces : piecesAll (factorsFrom (q :: rest)) =
          .power q.1 q.2 :: piecesAll (factorsFrom rest) := by
        rw [factorsFrom, List.map_cons, piecesAll, hl.1.pieces]
        rfl
      rw [hpieces, multiplyAll_cons, Piece.multiply, Factors.count, tally_of_new hl.1.proper hnew,
        List.append_cons acc q rest]
      exact hrest

/-- Normal powers are all written down, and nothing goes into the coefficient. -/
theorem factorsOf_of_isFactor {c : Number} : ∀ {l : Tally}, (∀ q ∈ l, IsFactor precision q) →
    factorsOf precision l c = .ok (c, factorsFrom l)
  | [], _ => rfl
  | q :: rest, hl => by
      rw [List.forall_mem_cons] at hl
      rw [factorsOf, hl.1.nonzero, hl.1.unfolded, factorsOf_of_isFactor hl.2]
      rfl

/-- Factors that multiply to normal powers and a coefficient are multiplied as these are written. -/
theorem product_of_multiplyAll {es : List Expr} {c : Number} {l : Tally}
    (hl : IsNormal κ precision l)
    (h : multiplyAll (piecesAll (Expr.flatten (some "Multiply") es)) {} = .ok ⟨c, l⟩) :
    product κ precision es = .ok (productOf c (factorsFrom l)) := by
  have harrange : arrange κ l = l := mergeSort_of_sorted (hl.ordered.imp fun h => h.le)
  rw [product, h]
  change written precision (arrange κ l) c = _
  rw [harrange, written, factorsOf_of_isFactor hl.factors]
  rfl

namespace IsNormal

variable {l : Tally} (h : IsNormal κ precision l)

include h

theorem distinct : l.Pairwise fun x y => x.1 ≠ y.1 :=
  h.ordered.imp fun hlt heq => by simp [heq] at hlt

theorem isLeaf : ∀ x ∈ factorsFrom l, x.isLeaf (some "Multiply") = true := by
  intro x hx
  obtain ⟨q, hq, rfl⟩ := List.mem_map.1 hx
  exact (h.factors q hq).isLeaf

theorem multiplyAll (c : Number) :
    multiplyAll (piecesAll (factorsFrom l)) ⟨c, []⟩ = .ok ⟨c, l⟩ :=
  multiplyAll_factorsFrom h.factors (by simp) h.distinct

end IsNormal

theorem leaves_bareProduct {fs : List Expr} (hne : fs ≠ [])
    (hfs : ∀ x ∈ fs, x.isLeaf (some "Multiply") = true) :
    Expr.leaves (some "Multiply") (bareProduct fs) = fs := by
  rcases fs with _ | ⟨f, _ | ⟨g, rest⟩⟩
  · exact absurd rfl hne
  · exact Expr.leaves_of_isLeaf (hfs f (by simp))
  · rw [bareProduct, Expr.leaves, if_pos (by rfl), Expr.flatten_of_isLeaf hfs]
    simp

theorem pieces_bareProduct {fs : List Expr} (hne : fs ≠ []) :
    pieces (bareProduct fs) = piecesAll fs := by
  rcases fs with _ | ⟨f, _ | ⟨g, rest⟩⟩
  · exact absurd rfl hne
  · rw [bareProduct, piecesAll, piecesAll, List.append_nil]
  · rfl

theorem product_number {c : Number} (hc : c.isProper = true) :
    product κ precision [.number c] = .ok (.number c) := by
  have h : product κ precision [.number c] = .ok (productOf c (factorsFrom [])) :=
    product_of_multiplyAll ⟨by simp, .nil⟩ (multiplyAll_number hc)
  rw [h, factorsFrom, productOf]
  simp

theorem splitOf_of_isFactor {q : Expr × Number} (h : IsFactor precision q) :
    splitOf (writtenPower q.1 q.2) = .ok (.one, some (writtenPower q.1 q.2)) := by
  obtain ⟨hnumber, hmul, hneg⟩ := h.operator
  revert hnumber hmul hneg
  cases writtenPower q.1 q.2 with
  | number v => simp [Expr.isNumber]
  | symbol n d c => simp [splitOf]
  | error a b x => simp [splitOf]
  | application f ops d c => simp +contextual [splitOf, Expr.isApplicationOf]

/-- A normal product without a coefficient is its own monomial. -/
theorem splitOf_bareProduct {l : Tally} (hl : IsNormal κ precision l) (hne : l ≠ []) :
    splitOf (bareProduct (factorsFrom l)) = .ok (.one, some (bareProduct (factorsFrom l))) := by
  rcases l with _ | ⟨q, _ | ⟨q', rest⟩⟩
  · exact absurd rfl hne
  · exact splitOf_of_isFactor (hl.factors q (by simp))
  · obtain ⟨hnumber, -, -⟩ := (hl.factors q (by simp)).operator
    change splitOf (.node "Multiply" (writtenPower q.1 q.2 :: _ :: _)) = _
    revert hnumber
    cases hq : writtenPower q.1 q.2 with
    | number v => simp [Expr.isNumber]
    | _ => simp [splitOf, bareProduct, factorsFrom, hq]

section Product

variable {l : Tally} (hl : IsNormal κ precision l) {c : Number} (hc : c.isProper = true)

include hl hc

/-- The product of a number and a product without a coefficient. -/
theorem product_number_bareProduct (hne : l ≠ []) :
    product κ precision [.number c, bareProduct (factorsFrom l)] =
      .ok (productOf c (factorsFrom l)) := by
  have hfs : factorsFrom l ≠ [] := by simpa [factorsFrom] using hne
  refine product_of_multiplyAll hl ?_
  rw [Expr.flatten, Expr.flatten, Expr.flatten, leaves_bareProduct hfs hl.isLeaf, List.append_nil]
  change Kernel.multiplyAll (.number c :: piecesAll (factorsFrom l)) {} = _
  rw [multiplyAll_cons, Piece.multiply, Number.one_mul_of_isProper hc]
  exact hl.multiplyAll c

/-- **A normal product is the product of itself alone.** -/
theorem product_productOf :
    product κ precision [productOf c (factorsFrom l)] = .ok (productOf c (factorsFrom l)) := by
  by_cases hnumber : (c.isZero || (factorsFrom l).isEmpty) = true
  · rw [productOf, if_pos hnumber]
    exact product_number hc
  have hfs : factorsFrom l ≠ [] := by
    intro h
    simp [h] at hnumber
  refine product_of_multiplyAll hl ?_
  rw [productOf, if_neg hnumber, Expr.flatten, Expr.flatten, List.append_nil]
  split
  next hone =>
    obtain rfl := eq_one_of_isOne hc hone
    rw [leaves_bareProduct hfs hl.isLeaf]
    exact hl.multiplyAll .one
  next =>
    split
    next hneg =>
      obtain rfl := eq_negativeOne_of_isNegativeOne hc hneg
      have hpieces : piecesAll [.node "Negate" [bareProduct (factorsFrom l)]] =
          .sign :: piecesAll (factorsFrom l) := by
        rw [← pieces_bareProduct hfs]
        simp [piecesAll, pieces]
      change Kernel.multiplyAll (piecesAll [.node "Negate" [bareProduct (factorsFrom l)]]) {} = _
      rw [hpieces, multiplyAll_cons]
      exact hl.multiplyAll .negativeOne
    next =>
      have hleaves : ∀ x ∈ .number c :: factorsFrom l, x.isLeaf (some "Multiply") = true :=
        List.forall_mem_cons.2 ⟨rfl, hl.isLeaf⟩
      rw [Expr.leaves, if_pos (by rfl), Expr.flatten_of_isLeaf hleaves]
      change Kernel.multiplyAll (.number c :: piecesAll (factorsFrom l)) {} = _
      rw [multiplyAll_cons, Piece.multiply, Number.one_mul_of_isProper hc]
      exact hl.multiplyAll c

/-- The coefficient of a normal product, and what it multiplies. -/
theorem splitOf_productOf : splitOf (productOf c (factorsFrom l)) =
    .ok (c, if c.isZero || l.isEmpty then none else some (bareProduct (factorsFrom l))) := by
  have hempty : (factorsFrom l).isEmpty = l.isEmpty := List.isEmpty_map
  unfold productOf
  rw [hempty]
  split
  next => rfl
  next hnumber =>
    split
    next hone =>
      obtain rfl := eq_one_of_isOne hc hone
      exact splitOf_bareProduct hl (by rintro rfl; simp at hnumber)
    next =>
      split
      next hneg =>
        obtain rfl := eq_negativeOne_of_isNegativeOne hc hneg
        rfl
      next =>
        rcases hfs : factorsFrom l with _ | ⟨f, _ | ⟨g, rest⟩⟩
        · simp [hfs] at hempty
          simp [← hempty] at hnumber
        · rfl
        · rfl

end Product

/-! ## Collected powers are normal -/

/-- Whether every base with exponent one is written so that it does not come apart. -/
def Factors.isPlain (p : Factors) : Bool :=
  p.powers.all fun q => !q.2.isOne || q.1.isNumber || q.1.isAtom

@[simp] theorem Factors.isPlain_bare (p : Factors) : p.bare.isPlain = p.isPlain := by
  rw [isPlain, isPlain, bare, bareTally, List.all_map]
  congr 1
  funext q
  simp

theorem dissectible_pure : Dissectible IsPure (fun b n => IsPure b ∧ n.isProper = true)
    (fun v => v.isProper = true) True where
  number := fun h => h.proper
  operand := fun _ h => h.operand
  power := fun h => ⟨h.operand _ (by simp), (h.operand (.number _) (by simp)).proper⟩
  base := fun h _ => ⟨h, rfl⟩
  missing := fun _ _ => trivial

/-- The expressions that are counted. -/
abbrev keys (l : Tally) : List Expr := l.map (·.1)

theorem keys_tally {e : Expr} {n : Number} : ∀ {l l' : Tally}, tally e n l = .ok l' →
    (∃ q ∈ l, q.1.same e = true) ∧ keys l' = keys l ∨
      (∀ q ∈ l, q.1.same e = false) ∧ keys l' = keys l ++ [e]
  | [], l', h => by
      obtain ⟨s, -, h⟩ := exists_of_bind_ok h
      cases h
      exact .inr ⟨by simp, rfl⟩
  | (x, m) :: rest, l', h => by
      rw [tally] at h
      split at h
      next hsame =>
        obtain ⟨s, -, h⟩ := exists_of_bind_ok h
        cases h
        exact .inl ⟨⟨(x, m), by simp, hsame⟩, rfl⟩
      next hsame =>
        obtain ⟨r, hr, h⟩ := exists_of_bind_ok h
        cases h
        rcases keys_tally hr with ⟨⟨q, hq, hold⟩, hk⟩ | ⟨hnew, hk⟩
        · exact .inl ⟨⟨q, by simp [hq], hold⟩, by simp [hk]⟩
        · exact .inr ⟨List.forall_mem_cons.2 ⟨by simpa using hsame, hnew⟩, by simp [hk]⟩

/-- Nothing is counted in two places. -/
theorem nodup_tally {e : Expr} {n : Number} {l l' : Tally} (hl : (keys l).Nodup)
    (h : tally e n l = .ok l') : (keys l').Nodup := by
  rcases keys_tally h with ⟨-, hk⟩ | ⟨hnew, hk⟩
  · rw [hk]
    exact hl
  · rw [hk, List.nodup_append]
    refine ⟨hl, by simp, ?_⟩
    intro x hx y hy heq
    obtain ⟨q, hq, rfl⟩ := List.mem_map.1 hx
    have hsame := hnew q hq
    rw [List.mem_singleton.1 hy] at heq
    rw [heq, Expr.same_refl] at hsame
    cases hsame

theorem nodup_multiply {x : Piece} {p p' : Factors} (hp : (keys p.powers).Nodup)
    (h : x.multiply p = .ok p') : (keys p'.powers).Nodup := by
  cases x with
  | number v =>
      obtain ⟨c, -, h⟩ := exists_of_bind_ok h
      cases h
      exact hp
  | sign =>
      obtain ⟨c, -, h⟩ := exists_of_bind_ok h
      cases h
      exact hp
  | power base exponent =>
      obtain ⟨l, hl, h⟩ := exists_of_bind_ok h
      cases h
      exact nodup_tally hp (eq_ok_of_liftNumber hl)
  | missing => cases h

theorem nodup_multiplyAll : ∀ {ps : List Piece} {p p' : Factors}, (keys p.powers).Nodup →
    multiplyAll ps p = .ok p' → (keys p'.powers).Nodup
  | [], p, p', hp, h => by
      cases h
      exact hp
  | x :: ps, p, p', hp, h => by
      rw [multiplyAll_cons] at h
      obtain ⟨p₁, hx, h⟩ := exists_of_bind_ok h
      exact nodup_multiplyAll (nodup_multiply hp hx) h

/-- Powers with different pure bases are arranged in strict order. -/
theorem ordered_arrange {l : Tally} (hl : ∀ q ∈ l, IsPure q.1) (hn : (keys l).Nodup) :
    (arrange κ l).Pairwise fun x y => code κ x.1 < code κ y.1 := by
  have hperm := arrange_perm κ l
  have hdistinct : (arrange κ l).Pairwise fun x y => x.1 ≠ y.1 :=
    List.pairwise_map.1 ((hperm.map _).nodup_iff.2 hn)
  refine ((pairwise_sorted l).and hdistinct).imp_of_mem fun {x y} hx hy h => ?_
  have hpx := hl x (hperm.mem_iff.1 hx)
  have hpy := hl y (hperm.mem_iff.1 hy)
  refine h.1.lt_of_ne fun hcode => h.2 ?_
  rw [← hpx.isBare, ← hpy.isBare]
  exact code_injective hpx.exact hpy.exact hcode

/-- What is written down are powers of the list; the others vanish or go into the coefficient. -/
theorem factorsOf_ok : ∀ {l : Tally} {c c' : Number} {fs : List Expr},
    (∀ q ∈ l, q.1.isExact = true ∧ q.2.isProper = true) → c.isProper = true →
    factorsOf precision l c = .ok (c', fs) →
    c'.isProper = true ∧ ∃ kept : Tally, kept.Sublist l ∧ fs = factorsFrom kept ∧
      ∀ q ∈ kept, q.2.isZero = false ∧ foldedPower precision q.1 q.2 = .ok none
  | [], c, c', fs, _, hc, h => by
      cases h
      exact ⟨hc, [], .slnil, rfl, by simp⟩
  | (base, exponent) :: rest, c, c', fs, hl, hc, h => by
      rw [List.forall_mem_cons] at hl
      rw [factorsOf] at h
      split at h
      next =>
        obtain ⟨hc', kept, hsub, hfs, hkept⟩ := factorsOf_ok hl.2 hc h
        exact ⟨hc', kept, hsub.cons _, hfs, hkept⟩
      next hzero =>
        obtain ⟨folded, hfolded, h⟩ := exists_of_bind_ok h
        cases folded with
        | some v =>
            have hv := isExact_of_foldedPower hl.1.1 (Number.isExact_of_isProper hl.1.2) hfolded
            obtain ⟨d, hd, hproper⟩ := Number.mul_isProper (Number.isExact_of_isProper hc) hv
            simp only [hd] at h
            obtain ⟨hc', kept, hsub, hfs, hkept⟩ := factorsOf_ok hl.2 hproper h
            exact ⟨hc', kept, hsub.cons _, hfs, hkept⟩
        | none =>
            obtain ⟨⟨d, gs⟩, hrest, h⟩ := exists_of_bind_ok h
            cases h
            obtain ⟨hc', kept, hsub, rfl, hkept⟩ := factorsOf_ok hl.2 hc hrest
            refine ⟨hc', (base, exponent) :: kept, hsub.cons_cons _, rfl, ?_⟩
            exact List.forall_mem_cons.2 ⟨⟨by simpa using hzero, hfolded⟩, hkept⟩

/-- **Plain products of pure factors are normal.** -/
theorem product_normal {es : List Expr} (hes : ∀ e ∈ es, IsPure e) {p : Factors} {r : Expr}
    (hp : multiplyAll (piecesAll (Expr.flatten (some "Multiply") es)) {} = .ok p)
    (hplain : p.isPlain = true) (hr : product κ precision es = .ok r) :
    ∃ c l, c.isProper = true ∧ IsNormal κ precision l ∧ (∀ q ∈ l, q ∈ p.powers) ∧
      r = productOf c (factorsFrom l) := by
  have hflat := Expr.forall_flatten (a := some "Multiply")
    (fun _ _ _ _ _ h => IsPure.operand h) hes
  have hmeets : p.Meets (fun b n => IsPure b ∧ n.isProper = true) fun v => v.isProper = true := by
    rcases (collectable_proper IsPure).multiplyAll (p := {}) (dissectible_pure.piecesAll hflat)
      ⟨rfl, by simp⟩ with ⟨-, h⟩ | ⟨p', h, hp'⟩
    · rw [h] at hp
      cases hp
    · rw [h] at hp
      cases hp
      exact hp'
  have hwritten : written precision (arrange κ p.powers) p.coefficient = .ok r := by
    rw [product, hp] at hr
    exact hr
  obtain ⟨⟨c, fs⟩, hfactors, hr⟩ := exists_of_bind_ok hwritten
  cases hr
  have hperm := arrange_perm κ p.powers
  have hmem : ∀ q ∈ arrange κ p.powers, IsPure q.1 ∧ q.2.isProper = true :=
    fun q hq => hmeets.powers q (hperm.mem_iff.1 hq)
  obtain ⟨hc, kept, hsub, rfl, hkept⟩ := factorsOf_ok
    (fun q hq => ⟨(hmem q hq).1.exact, (hmem q hq).2⟩) hmeets.coefficient
    (eq_ok_of_liftNumber hfactors)
  refine ⟨c, kept, hc, ⟨fun q hq => ?_, ?_⟩, fun q hq => hperm.mem_iff.1 (hsub.subset hq), rfl⟩
  · have hpure := hmem q (hsub.subset hq)
    refine ⟨hpure.1, hpure.2, (hkept q hq).1, (hkept q hq).2, fun hone => ?_⟩
    have h := List.all_eq_true.1 hplain q (hperm.mem_iff.1 (hsub.subset hq))
    rw [hone] at h
    cases hq1 : q.1 with
    | number b =>
        -- a number with exponent one went into the coefficient
        have hb := hpure.1.exact
        rw [hq1] at hb
        obtain ⟨v, hv⟩ := foldedPower_one precision (b := b) hb
        have hnone := (hkept q hq).2
        rw [hq1, eq_one_of_isOne hpure.2 hone, hv] at hnone
        cases hnone
    | _ => simpa [hq1, Expr.isNumber] using h
  · exact (ordered_arrange (fun q hq => (hmeets.powers q hq).1)
      (nodup_multiplyAll (by simp) hp)).sublist hsub

end Kernel

end SymbolicAlgebra
