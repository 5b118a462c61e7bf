import SymbolicAlgebra.Proofs.Calculation
import SymbolicAlgebra.Proofs.NormalProduct

/-!
# Proofs/NormalForm — sums and products are normal forms

A sum is written as terms with different normal monomials, in order.  If none of its terms is a sum
itself, it is collected into the terms that it was written from, and adding it once more gives it
back.

`normal_form` puts the two together: the results of `mul` and `add` are flat and are left alone by
`mul` and `add`, unless a power comes to the exponent one, or a sum to the coefficient one, and lays
its base or the sum bare.  Such a power and such a sum are possible (`sum_in_sum`).
-/

namespace SymbolicAlgebra.Kernel

open OrderKey

variable {κ : String → ℤ} {precision : Nat}

/-! ## Monomials -/

/-- Whether an exponent has a finite double; complex ones are not asked for it. -/
def hasFiniteDouble : Number → Bool
  | .real x => x.toFloat.isFinite
  | .complex _ _ => true

/-- Whether all exponents are finite. -/
def Factors.isFinite (p : Factors) : Bool := p.powers.all fun q => hasFiniteDouble q.2

@[simp] theorem Factors.isFinite_bare (p : Factors) : p.bare.isFinite = p.isFinite := by
  rw [isFinite, isFinite, bare, bareTally, List.all_map]
  rfl

/-- A normal product without a coefficient, with finite exponents. -/
structure IsMonomialOf (κ : String → ℤ) (precision : Nat) (l : Tally) (m : Expr) : Prop where
  normal : IsNormal κ precision l
  nonempty : l ≠ []
  finite : ∀ q ∈ l, hasFiniteDouble q.2 = true
  eq : m = bareProduct (factorsFrom l)

/-- An expression that the terms of a sum may be collected by. -/
def IsMonomial (κ : String → ℤ) (precision : Nat) (m : Expr) : Prop := ∃ l, IsMonomialOf κ precision l m

theorem isPure_bareProduct {fs : List Expr} (h : ∀ x ∈ fs, IsPure x) : IsPure (bareProduct fs) := by
  have hnode : IsPure (.node "Multiply" fs) := by
    refine ⟨?_, Expr.allOver_iff.2 fun x hx => (h x hx).proper⟩
    rw [Expr.bare_application, List.map_congr_left fun x hx => (h x hx).isBare, List.map_id'']
    exact fun _ => rfl
  rcases fs with _ | ⟨f, _ | ⟨g, rest⟩⟩
  · exact hnode
  · exact h f (by simp)
  · exact hnode

theorem IsMonomial.isPure {m : Expr} (h : IsMonomial κ precision m) : IsPure m := by
  obtain ⟨l, hl⟩ := h
  rw [hl.eq]
  refine isPure_bareProduct fun x hx => ?_
  obtain ⟨q, hq, rfl⟩ := List.mem_map.1 hx
  exact (hl.normal.factors q hq).written

/-- A power as the order of sums reads it: its base with the double of its exponent.  One with a
complex exponent is a base itself. -/
def doubled (q : Expr × Number) : Expr × Float :=
  match q.2 with
  | .real x => (q.1, x.toFloat)
  | .complex _ _ => (writtenPower q.1 q.2, 1)

theorem IsFactor.factorOf {q : Expr × Number} (h : IsFactor precision q) :
    Kernel.factorOf (writtenPower q.1 q.2) = .ok (doubled q) := by
  obtain ⟨base, exponent⟩ := q
  cases hone : exponent.isOne with
  | true =>
      obtain rfl := eq_one_of_isOne h.proper hone
      rw [writtenPower, if_pos hone, factorOf_of_isAtom (h.atom hone), doubled, Double.one_eq_ofRat]
      rfl
  | false =>
      have hwritten : writtenPower base exponent = .node "Power" [base, .number exponent] := by
        rw [writtenPower, hone]
        rfl
      cases exponent with
      | real x =>
          rw [hwritten]
          rfl
      | complex x y =>
          rw [doubled, hwritten]
          rfl

theorem isFinite_doubled {q : Expr × Number} (h : hasFiniteDouble q.2 = true) :
    (doubled q).2.isFinite = true := by
  obtain ⟨base, exponent⟩ := q
  cases exponent with
  | real x => exact h
  | complex x y =>
      have hone : (1 : Float).isFinite = true := by decide
      exact hone

theorem monomialFactors_bareProduct {l : Tally} (h : IsNormal κ precision l) (hne : l ≠ []) :
    monomialFactors (bareProduct (factorsFrom l)) = (factorsFrom l).mapM factorOf := by
  rw [monomialFactors_eq]
  rcases l with _ | ⟨q, _ | ⟨q', rest⟩⟩
  · exact absurd rfl hne
  · have hmul : (writtenPower q.1 q.2).operator ≠ "Multiply" := by
      have hoperator := (h.factors q (by simp)).operator.2.1
      revert hoperator
      cases writtenPower q.1 q.2 <;> simp [Expr.isApplicationOf, Expr.operator]
    change (if (writtenPower q.1 q.2).operator == "Multiply" then _ else [writtenPower q.1 q.2]).mapM _ = _
    rw [if_neg (by simpa using hmul)]
    rfl
  · rfl

theorem mapM_eq_ok {α β ε : Type} {f : α → Except ε β} {g : α → β} : ∀ {l : List α},
    (∀ a ∈ l, f a = .ok (g a)) → l.mapM f = .ok (l.map g)
  | [], _ => rfl
  | a :: rest, h => by
      rw [List.forall_mem_cons] at h
      rw [List.mapM_cons, h.1, mapM_eq_ok h.2]
      rfl

/-- The powers that a monomial is read as. -/
theorem IsMonomialOf.factors {l : Tally} {m : Expr} (h : IsMonomialOf κ precision l m) :
    monomialFactors m = .ok (l.map doubled) := by
  rw [h.eq, monomialFactors_bareProduct h.normal h.nonempty, factorsFrom, List.mapM_map]
  exact mapM_eq_ok fun q hq => (h.normal.factors q hq).factorOf

/-- The bases of a monomial can be read, and their exponents are finite. -/
theorem IsMonomialOf.isSteady {l : Tally} {m : Expr} (h : IsMonomialOf κ precision l m) :
    isSteady m = true := by
  rw [Kernel.isSteady, h.factors]
  refine List.all_eq_true.2 (List.forall_mem_map.2 fun q hq => ?_)
  exact isFinite_doubled (h.finite q hq)

theorem IsMonomialOf.monomialCode {l : Tally} {m : Expr} (h : IsMonomialOf κ precision l m) :
    monomialCode κ m = termCode κ (l.map doubled) := by
  rw [Kernel.monomialCode, h.factors]

/-! ## Terms -/

/-- A term of a sum: a proper multiple of a monomial. -/
structure IsTerm (κ : String → ℤ) (precision : Nat) (q : Expr × Number) : Prop where
  monomial : IsMonomial κ precision q.1
  proper : q.2.isProper = true

/-- A term multiplied out. -/
theorem IsMonomialOf.product {l : Tally} {m : Expr} (h : IsMonomialOf κ precision l m) {c : Number}
    (hc : c.isProper = true) :
    product κ precision [.number c, m] = .ok (productOf c (factorsFrom l)) := by
  rw [h.eq]
  exact product_number_bareProduct h.normal hc h.nonempty

/-- **A normal product is split into its coefficient and its powers.** -/
theorem splitProduct_productOf {l : Tally} (hl : IsNormal κ precision l) (hne : l ≠ []) {c : Number}
    (hc : c.isProper = true) (hz : c.isZero = false) :
    splitProduct κ precision (productOf c (factorsFrom l)) =
      .ok (c, some (bareProduct (factorsFrom l))) := by
  have hempty : l.isEmpty = false := by simpa using hne
  rw [splitProduct, product_productOf hl hc]
  change splitOf _ = _
  rw [splitOf_productOf hl hc, hz, hempty]
  rfl

/-- A term that was multiplied out is split into itself. -/
theorem splitProduct_of_isTerm {q : Expr × Number} {e : Expr} (h : IsTerm κ precision q)
    (hz : q.2.isZero = false) (he : product κ precision [.number q.2, q.1] = .ok e) :
    splitProduct κ precision e = .ok (q.2, some q.1) := by
  obtain ⟨l, hl⟩ := h.monomial
  rw [hl.product h.proper] at he
  cases he
  rw [splitProduct_productOf hl.normal hl.nonempty h.proper hz, hl.eq]

/-- Whether a summand is plain, and its exponents are finite. -/
def IsPlainSummand (e : Expr) : Prop :=
  ∀ p, multiplyAll (piecesAll (Expr.flatten (some "Multiply") [e])) {} = .ok p →
    p.isPlain = true ∧ p.isFinite = true

/-- What a plain summand is split into. -/
theorem splitProduct_ok {e : Expr} (he : IsPure e) (hplain : IsPlainSummand e) {v : Number}
    {m : Option Expr} (h : splitProduct κ precision e = .ok (v, m)) :
    v.isProper = true ∧ ∀ x, m = some x → IsMonomial κ precision x := by
  obtain ⟨r, hr, hsplit⟩ := exists_of_bind_ok h
  obtain ⟨p, hp, -⟩ := exists_of_bind_ok hr
  obtain ⟨hpp, hpf⟩ := hplain p hp
  obtain ⟨c, l, hc, hl, hsub, rfl⟩ := product_normal (by simpa using he) hp hpp hr
  rw [splitOf_productOf hl hc, Except.ok.injEq, Prod.mk.injEq] at hsplit
  obtain ⟨rfl, rfl⟩ := hsplit
  refine ⟨hc, fun x hx => ?_⟩
  split at hx
  next => cases hx
  next hne =>
    cases hx
    refine ⟨l, hl, ?_, fun q hq => List.all_eq_true.1 hpf q (hsub q hq), rfl⟩
    rintro rfl
    simp at hne

section Gather

variable {e : Expr} {rest : List Expr} {s : Terms} {v : Number}

/-- A summand that is a number is added to the constant. -/
theorem gather_constant {c : Number} (hsplit : splitProduct κ precision e = .ok (v, none))
    (hc : s.constant.add v = .ok c) :
    gather κ precision (e :: rest) s = gather κ precision rest { s with constant := c } := by
  rw [gather, hsplit]
  change (liftNumber (s.constant.add v) >>= fun c =>
    gather κ precision rest { s with constant := c }) = _
  rw [hc]
  rfl

/-- A multiple of a monomial is counted among the terms. -/
theorem gather_term {m : Expr} {l : Tally} (hsplit : splitProduct κ precision e = .ok (v, some m))
    (hl : tally m v s.monomials = .ok l) :
    gather κ precision (e :: rest) s = gather κ precision rest { s with monomials := l } := by
  rw [gather, hsplit]
  change (liftNumber (tally m v s.monomials) >>= fun l =>
    gather κ precision rest { s with monomials := l }) = _
  rw [hl]
  rfl

end Gather

/-- A sum taken apart into a constant and terms with different monomials. -/
structure IsCollected (κ : String → ℤ) (precision : Nat) (s : Terms) : Prop where
  constant : s.constant.isProper = true
  terms : ∀ q ∈ s.monomials, IsTerm κ precision q
  nodup : (keys s.monomials).Nodup

/-- Plain summands are collected into a constant and terms. -/
theorem gather_ok : ∀ {es : List Expr} {s s' : Terms}, (∀ e ∈ es, IsPure e ∧ IsPlainSummand e) →
    IsCollected κ precision s → gather κ precision es s = .ok s' → IsCollected κ precision s'
  | [], s, s', _, hs, h => by
      cases h
      exact hs
  | e :: rest, s, s', hes, hs, h => by
      rw [List.forall_mem_cons] at hes
      obtain ⟨⟨v, m⟩, hsplit, h⟩ := exists_of_bind_ok h
      obtain ⟨hv, hm⟩ := splitProduct_ok hes.1.1 hes.1.2 hsplit
      cases m with
      | none =>
          obtain ⟨c, hc, h⟩ := exists_of_bind_ok h
          obtain ⟨c', hc', hproper⟩ := Number.add_isProper (Number.isExact_of_isProper hs.constant)
            (Number.isExact_of_isProper hv)
          obtain rfl : c' = c := Except.ok.inj (hc'.symm.trans (eq_ok_of_liftNumber hc))
          exact gather_ok (s := { s with constant := c' }) hes.2 ⟨hproper, hs.terms, hs.nodup⟩ h
      | some m =>
          obtain ⟨l, hl, h⟩ := exists_of_bind_ok h
          have hl := eq_ok_of_liftNumber hl
          obtain ⟨l', hl', hterms⟩ := (collectable_proper (IsMonomial κ precision)).tally
            ⟨hm m rfl, hv⟩ fun q hq => ⟨(hs.terms q hq).monomial, (hs.terms q hq).proper⟩
          obtain rfl : l' = l := Except.ok.inj (hl'.symm.trans hl)
          refine gather_ok (s := { s with monomials := l' }) hes.2
            ⟨hs.constant, fun q hq => ?_, nodup_tally hs.nodup hl⟩ h
          exact ⟨(hterms q hq).1, (hterms q hq).2⟩

/-! ## Sums -/

/-- A sum as it is written: a constant, terms with different monomials in order, and the terms
multiplied out. -/
structure IsSum (κ : String → ℤ) (precision : Nat) (c : Number) (l : Tally) (es : List Expr) :
    Prop where
  constant : c.isProper = true
  terms : ∀ q ∈ l, IsTerm κ precision q ∧ q.2.isZero = false
  nodup : (keys l).Nodup
  ordered : l.Pairwise fun x y => monomialCode κ x.1 ≤ monomialCode κ y.1
  summands : List.Forall₂ (fun q e => product κ precision [.number q.2, q.1] = .ok e) l es

/-- The summands of a sum with its constant, if that is written. -/
def summandsWith (c : Number) (summands : List Expr) : List Expr :=
  if !c.isZero || summands.isEmpty then summands ++ [.number c] else summands

theorem sumOf_eq (c : Number) (summands : List Expr) :
    sumOf c summands = bareSum (summandsWith c summands) := rfl

theorem summandsWith_ne_nil (c : Number) (summands : List Expr) : summandsWith c summands ≠ [] := by
  unfold summandsWith
  split
  next => simp
  next h =>
    rintro rfl
    simp at h

theorem leaves_bareSum {es : List Expr} (hne : es ≠ [])
    (hes : ∀ x ∈ es, x.isLeaf (some "Add") = true) :
    Expr.leaves (some "Add") (bareSum es) = es := by
  rcases es with _ | ⟨e, _ | ⟨e', rest⟩⟩
  · exact absurd rfl hne
  · exact Expr.leaves_of_isLeaf (hes e (by simp))
  · rw [bareSum, Expr.leaves, if_pos (by rfl), Expr.flatten_of_isLeaf hes]
    simp

theorem not_add_of_isLeaf {e : Expr} (h : e.isLeaf (some "Add") = true) :
    e.isApplicationOf "Add" = false := by
  cases e with
  | application f ops d c =>
      rw [Expr.isApplicationOf, beq_eq_false_iff_ne]
      rintro rfl
      cases h
  | _ => rfl

/-- New terms, multiplied out, are collected one after the other. -/
theorem gather_summands {summands tail : List Expr} {terms : Tally}
    (hs : List.Forall₂ (fun q e => product κ precision [.number q.2, q.1] = .ok e) terms summands) :
    ∀ {c : Number} {acc : Tally}, (∀ q ∈ terms, IsTerm κ precision q ∧ q.2.isZero = false) →
      (∀ q ∈ acc, IsTerm κ precision q) → (keys (acc ++ terms)).Nodup →
      gather κ precision (summands ++ tail) ⟨c, acc⟩ = gather κ precision tail ⟨c, acc ++ terms⟩ := by
  induction hs with
  | nil =>
      intro c acc _ _ _
      simp
  | @cons q e terms summands hq _ ih =>
      intro c acc hterms hacc hnodup
      rw [List.forall_mem_cons] at hterms
      have hnew : ∀ x ∈ acc, x.1.same q.1 = false := fun x hx => by
        have hne : x.1 ≠ q.1 := by
          rw [keys, List.map_append, List.nodup_append] at hnodup
          exact hnodup.2.2 x.1 (List.mem_map_of_mem hx) q.1 (by simp)
        exact (hacc x hx).monomial.isPure.same_eq_false hterms.1.1.monomial.isPure hne
      have hrest : gather κ precision (summands ++ tail) ⟨c, acc ++ [q]⟩ =
          gather κ precision tail ⟨c, acc ++ [q] ++ terms⟩ :=
        ih hterms.2 (List.forall_mem_append.2 ⟨hacc, by simpa using hterms.1.1⟩)
          (by simpa using hnodup)
      rw [List.cons_append, List.append_cons acc q terms, ← hrest]
      exact gather_term (splitProduct_of_isTerm hterms.1.1 hterms.1.2 hq)
        (tally_of_new hterms.1.1.proper hnew)

theorem splitProduct_number {c : Number} (hc : c.isProper = true) :
    splitProduct κ precision (.number c) = .ok (c, none) := by
  rw [splitProduct, product_number hc]
  rfl

theorem gather_number {c : Number} (hc : c.isProper = true) (l : Tally) :
    gather κ precision [.number c] ⟨.zero, l⟩ = .ok ⟨c, l⟩ :=
  gather_constant (splitProduct_number hc) (Number.zero_add_of_isProper hc)

theorem pairwise_of_forall₂ {α β : Type} {R : α → β → Prop} {P : α → α → Prop}
    {Q : β → β → Prop} (hPQ : ∀ a b a' b', R a b → R a' b' → P a a' → Q b b') {l : List α}
    {l' : List β} (h : List.Forall₂ R l l') (hl : l.Pairwise P) : l'.Pairwise Q := by
  induction h with
  | nil => exact .nil
  | @cons a b l l' hab hrest ih =>
      rw [List.pairwise_cons] at hl
      exact .cons (forall_of_forall₂ (fun a' b' h hP => hPQ a b a' b' hab h hP) hrest hl.1) (ih hl.2)

theorem exists_of_forall₂ {α β : Type} {R : α → β → Prop} {l : List α} {l' : List β}
    (h : List.Forall₂ R l l') {a : α} (ha : a ∈ l) : ∃ b ∈ l', R a b := by
  obtain ⟨i, hi, rfl⟩ := List.getElem_of_mem ha
  exact ⟨_, List.getElem_mem _, h.get hi (h.length_eq ▸ hi)⟩

/-- A term multiplied out is not spliced into a sum, unless its monomial is a sum. -/
theorem isLeaf_of_isTerm {q : Expr × Number} {e : Expr} (h : IsTerm κ precision q)
    (hadd : q.2.isOne = true → q.1.isApplicationOf "Add" = false)
    (he : product κ precision [.number q.2, q.1] = .ok e) : e.isLeaf (some "Add") = true := by
  obtain ⟨l, hl⟩ := h.monomial
  rw [hl.product h.proper] at he
  cases he
  unfold productOf
  split
  next => rfl
  next =>
    split
    next hone =>
      have hm := hadd hone
      rw [hl.eq] at hm
      revert hm
      rcases l with _ | ⟨x, _ | ⟨y, rest⟩⟩
      · exact fun _ => rfl
      · intro hm
        have hx := hl.normal.factors x (by simp)
        change (writtenPower x.1 x.2).isApplicationOf "Add" = false at hm
        change (writtenPower x.1 x.2).isLeaf (some "Add") = true
        unfold writtenPower at hm ⊢
        split
        next hx1 =>
          rw [if_pos hx1] at hm
          exact isLeaf_of_isAtom (hx.atom hx1) (.inr hm)
        next => rfl
      · exact fun _ => rfl
    next => split <;> rfl

namespace IsSum

variable {c : Number} {l : Tally} {es : List Expr} (h : IsSum κ precision c l es)

include h

/-- **A sum is collected into the terms that it was written from.** -/
theorem gather : gather κ precision (summandsWith c es) {} = .ok ⟨c, l⟩ := by
  have hterms : ∀ tail, Kernel.gather κ precision (es ++ tail) ⟨.zero, []⟩ =
      Kernel.gather κ precision tail ⟨.zero, [] ++ l⟩ :=
    fun tail => gather_summands h.summands h.terms (by simp) h.nodup
  unfold summandsWith
  split
  next =>
    change Kernel.gather κ precision (es ++ [.number c]) ⟨.zero, []⟩ = _
    rw [hterms, gather_number h.constant]
    rfl
  next hc =>
    have hz : c = .zero := eq_zero_of_isZero h.constant (by simp_all)
    change Kernel.gather κ precision es ⟨.zero, []⟩ = _
    rw [← List.append_nil es, hterms, hz]
    rfl

/-- Different summands have different monomials. -/
theorem monomials_ne : (summandsWith c es).Pairwise fun x y => ∀ v w m n,
    splitProduct κ precision x = .ok (v, some m) → splitProduct κ precision y = .ok (w, some n) →
      m ≠ n := by
  have hsplit : List.Forall₂ (fun q e => splitProduct κ precision e = .ok (q.2, some q.1)) l es :=
    ((List.forall₂_and_left _ _).2 ⟨h.terms, h.summands⟩).imp fun q e hq =>
      splitProduct_of_isTerm hq.1.1 hq.1.2 hq.2
  have hes : es.Pairwise fun x y => ∀ v w m n, splitProduct κ precision x = .ok (v, some m) →
      splitProduct κ precision y = .ok (w, some n) → m ≠ n := by
    refine pairwise_of_forall₂ (P := fun p q => p.1 ≠ q.1) ?_ hsplit (List.pairwise_map.1 h.nodup)
    intro p x q y hp hq hne v w m n hx hy
    rw [hp] at hx
    rw [hq] at hy
    cases hx
    cases hy
    exact hne
  unfold summandsWith
  split
  next =>
    refine List.pairwise_append.2 ⟨hes, by simp, fun x _ y hy v w m n _ hsome => ?_⟩
    rw [List.mem_singleton.1 hy, splitProduct_number h.constant] at hsome
    cases hsome
  next => exact hes

/-- A sum none of whose terms is a sum itself is flattened into its summands. -/
theorem flatten (hadd : ∀ q ∈ l, q.2.isOne = true → q.1.isApplicationOf "Add" = false) :
    (∀ x ∈ summandsWith c es, x.isLeaf (some "Add") = true) ∧
      Expr.flatten (some "Add") [sumOf c es] = summandsWith c es := by
  have hes : ∀ x ∈ es, x.isLeaf (some "Add") = true :=
    forall_of_forall₂ (P := fun q => IsTerm κ precision q ∧
        (q.2.isOne = true → q.1.isApplicationOf "Add" = false))
      (fun q x hx hq => isLeaf_of_isTerm hq.1 hq.2 hx) h.summands
      fun q hq => ⟨(h.terms q hq).1, hadd q hq⟩
  have hall : ∀ x ∈ summandsWith c es, x.isLeaf (some "Add") = true := by
    unfold summandsWith
    split
    next => exact List.forall_mem_append.2 ⟨hes, by simp [Expr.isLeaf]⟩
    next => exact hes
  refine ⟨hall, ?_⟩
  rw [sumOf_eq, Expr.flatten, Expr.flatten, List.append_nil,
    leaves_bareSum (summandsWith_ne_nil c es) hall]

end IsSum

/-! ## In the regular realm -/

section Regular

variable {t : DefinitionTable} {settings : Settings}

/-- A plain sum is written in its own form. -/
theorem Realm.exists_isSum {es : List Expr} {r : Expr}
    (hes : ∀ e ∈ es, IsPure e ∧ IsPlainSummand e) (h : (regular t settings).Sum es (.ok r)) :
    ∃ s l summands, Kernel.gather t.registeredComplexity settings.precision es {} = .ok s ∧
      l = arrangeTerms t.registeredComplexity (s.monomials.filter fun q => !q.2.isZero) ∧
      IsSum t.registeredComplexity settings.precision s.constant l summands ∧
      r = sumOf s.constant summands := by
  obtain ⟨f, -, h⟩ | ⟨s, hs, ⟨f, h, -⟩ | ⟨l, summands, hl, hsummands, h⟩⟩ := h
  · cases h
  · cases h
  have hgather := eq_gather hs
  have hcollected := gather_ok hes ⟨rfl, by simp, by simp⟩ hgather.symm
  have hterm : ∀ q ∈ s.monomials.filter fun q => !q.2.isZero,
      IsTerm t.registeredComplexity settings.precision q ∧ q.2.isZero = false := by
    intro q hq
    obtain ⟨hq, hz⟩ := List.mem_filter.1 hq
    exact ⟨hcollected.terms q hq, by simpa using hz⟩
  have harranged : l = arrangeTerms t.registeredComplexity _ := hl.2 fun q hq => by
    obtain ⟨l, hl⟩ := (hterm q hq).1.monomial
    exact hl.isSteady
  have hnodup : (keys (s.monomials.filter fun q => !q.2.isZero)).Nodup :=
    hcollected.nodup.sublist (List.filter_sublist.map _)
  refine ⟨s, l, summands, hgather.symm, harranged, ⟨hcollected.constant, fun q hq => ?_, ?_, ?_, ?_⟩,
    Except.ok.inj h⟩
  · exact hterm q (hl.1.mem_iff.1 hq)
  · exact (hl.1.map _).nodup_iff.2 hnodup
  · rw [harranged]
    exact pairwise_sorted _
  · exact hsummands.imp fun q e h => (eq_product h).symm

/-- **Summands that are collected into the terms of a sum add up to that sum.** -/
theorem Realm.sum_of_gather {c : Number} {l : Tally} {es summands : List Expr}
    {o : Except Fault Expr} {s : Terms}
    (h : IsSum t.registeredComplexity settings.precision c l summands)
    (hs : Kernel.gather t.registeredComplexity settings.precision es {} = .ok s)
    (hc : s.constant = c)
    (hl : arrangeTerms t.registeredComplexity (s.monomials.filter fun q => !q.2.isZero) = l)
    (ho : (regular t settings).Sum es o) : o = .ok (sumOf c summands) := by
  have hmem : ∀ q, q ∈ (s.monomials.filter fun q => !q.2.isZero) ↔ q ∈ l := fun q => by
    rw [← hl, (arrangeTerms_perm _ _).mem_iff]
  have hmonomial : ∀ q ∈ l, isSteady q.1 = true := fun q hq => by
    obtain ⟨p, hp⟩ := (h.terms q hq).1.monomial
    exact hp.isSteady
  have hproduct : ∀ q ∈ l, ∃ e,
      product t.registeredComplexity settings.precision [.number q.2, q.1] = .ok e := fun q hq => by
    obtain ⟨p, hp⟩ := (h.terms q hq).1.monomial
    exact ⟨_, hp.product (h.terms q hq).1.proper⟩
  obtain ⟨f, hf, -⟩ | ⟨s', hs', hrest⟩ := ho
  · have hgather := eq_gather hf
    rw [hs] at hgather
    cases hgather
  have hgather := eq_gather hs'
  rw [hs] at hgather
  cases hgather
  obtain ⟨f, -, q, hq, hz, hfault | hfault⟩ | ⟨l', es', hl', hes', rfl⟩ := hrest
  · have hsteady := hmonomial q ((hmem q).1 (List.mem_filter.2 ⟨hq, by simp [hz]⟩))
    rw [Kernel.isSteady, hfault] at hsteady
    cases hsteady
  · obtain ⟨e, he⟩ := hproduct q ((hmem q).1 (List.mem_filter.2 ⟨hq, by simp [hz]⟩))
    rw [← eq_product hfault] at he
    cases he
  · have harranged : l' = l := by
      rw [hl'.2 fun q hq => hmonomial q ((hmem q).1 hq), hl]
    subst harranged
    have hunique : Relator.RightUnique fun (q : Expr × Number) e =>
        product t.registeredComplexity settings.precision [.number q.2, q.1] = .ok e :=
      fun q x y hx hy => Except.ok.inj (hx.symm.trans hy)
    rw [hunique.forall₂ (hes'.imp fun q e h => (eq_product h).symm) h.summands, hc]

/-- **A sum none of whose terms is a sum itself is the sum of itself alone.** -/
theorem Realm.sum_of_isSum {c : Number} {l : Tally} {es : List Expr} {o : Except Fault Expr}
    (h : IsSum t.registeredComplexity settings.precision c l es)
    (hadd : ∀ q ∈ l, q.2.isOne = true → q.1.isApplicationOf "Add" = false)
    (ho : (regular t settings).Sum (Expr.flatten (some "Add") [sumOf c es]) o) :
    o = .ok (sumOf c es) := by
  rw [(h.flatten hadd).2] at ho
  have hfilter : l.filter (fun q => !q.2.isZero) = l :=
    List.filter_eq_self.2 fun q hq => by simp [(h.terms q hq).2]
  refine sum_of_gather h h.gather rfl ?_ ho
  rw [hfilter]
  exact mergeSort_of_sorted h.ordered

end Regular

/-! ## The main result -/

/-- The terms of a sum; anything else is a term itself. -/
def termsOf (e : Expr) : List Expr := if e.isApplicationOf "Add" then e.operands else [e]

theorem termsOf_bare (e : Expr) : termsOf e.bare = (termsOf e).map Expr.bare := by
  unfold termsOf
  rw [Expr.isApplicationOf_bare, Expr.operands_bare]
  split <;> rfl

theorem isRegular_of_mem_termsOf {t : DefinitionTable} {e x : Expr} (he : e.isRegular t = true)
    (hx : x ∈ termsOf e) : x.isRegular t = true := by
  unfold termsOf at hx
  split at hx
  · exact isRegular_operands he x hx
  · rwa [List.mem_singleton.1 hx]

theorem termsOf_bareSum {es : List Expr} (hne : es ≠ [])
    (hes : ∀ x ∈ es, x.isLeaf (some "Add") = true) : termsOf (bareSum es) = es := by
  rcases es with _ | ⟨e, _ | ⟨e', rest⟩⟩
  · exact absurd rfl hne
  · have he : e.isApplicationOf "Add" = false := not_add_of_isLeaf (hes e (by simp))
    rw [bareSum, termsOf, if_neg (by simp [he])]
  · rfl

/-- The factors of a product leave no base that comes apart with exponent one. -/
def IsPlainProduct (ops : List Expr) : Prop :=
  ∀ p, collectFactors (Expr.flatten (some "Multiply") ops) {} = .ok p → p.isPlain = true

/-- The summands of a sum are plain, with finite exponents, and no sum among them is left with
coefficient one. -/
structure IsPlainSum (k : Kernel) (ops : List Expr) : Prop where
  plain : ∀ e ∈ Expr.flatten (some "Add") ops, IsPlainProduct [e]
  finite : ∀ e ∈ Expr.flatten (some "Add") ops, ∀ p,
    collectFactors (Expr.flatten (some "Multiply") [e]) {} = .ok p → p.isFinite = true
  terms : ∀ s k', (collectTerms (Expr.flatten (some "Add") ops) {}).run.run k = (.ok s, k') →
    ∀ q ∈ s.monomials, q.2.isOne = true → q.1.isApplicationOf "Add" = false

section Main

variable {k : Kernel} {ops : List Expr}

/-- What is collected from bare factors is collected from the factors. -/
theorem exists_collectFactors {t : DefinitionTable} {es : List Expr}
    (hes : ∀ e ∈ es, e.isRegular t = true) {p : Factors}
    (hp : multiplyAll (piecesAll (Expr.flatten (some "Multiply") (es.map Expr.bare))) {} = .ok p) :
    ∃ p', collectFactors (Expr.flatten (some "Multiply") es) {} = .ok p' ∧ p = p'.bare := by
  have hgood := (Realm.regular t {}).good_flatten (a := some "Multiply") hes
  rw [Expr.flatten_map_bare] at hp
  rcases Realm.collected hgood with ⟨-, h⟩ | ⟨p', h, -, -, hbare⟩
  · rw [h] at hp
    cases hp
  · rw [hbare] at hp
    cases hp
    exact ⟨p', h, rfl⟩

theorem isPure_of_isRegular {t : DefinitionTable} {es : List Expr}
    (hes : ∀ e ∈ es, e.isRegular t = true) : ∀ e ∈ es.map Expr.bare, IsPure e := by
  intro x hx
  obtain ⟨e, he, rfl⟩ := List.mem_map.1 hx
  exact isPure_bare (Expr.isProper_of_isRegular (hes e he))

/-- What is true of the factors that are collected from each summand is true of the bare summands. -/
theorem forall_bare_summands {t : DefinitionTable} {P : Factors → Prop}
    (hops : ∀ e ∈ ops, e.isRegular t = true)
    (h : ∀ e ∈ Expr.flatten (some "Add") ops, ∀ p,
      collectFactors (Expr.flatten (some "Multiply") [e]) {} = .ok p → P p.bare) :
    ∀ x ∈ (Expr.flatten (some "Add") ops).map Expr.bare, IsPure x ∧
      ∀ p, multiplyAll (piecesAll (Expr.flatten (some "Multiply") [x])) {} = .ok p → P p := by
  have hflat : ∀ e ∈ Expr.flatten (some "Add") ops, e.isRegular t = true :=
    (Realm.regular t {}).good_flatten hops
  intro x hx
  refine ⟨isPure_of_isRegular hflat x hx, fun p hp => ?_⟩
  obtain ⟨e, he, rfl⟩ := List.mem_map.1 hx
  obtain ⟨p', hp', rfl⟩ := exists_collectFactors (List.forall_mem_singleton.2 (hflat e he)) hp
  exact h e he p' hp'

theorem IsPlainSum.summands {t : DefinitionTable} (h : IsPlainSum k ops)
    (hops : ∀ e ∈ ops, e.isRegular t = true) :
    ∀ x ∈ (Expr.flatten (some "Add") ops).map Expr.bare, IsPure x ∧ IsPlainSummand x :=
  forall_bare_summands hops fun e he p hp =>
    ⟨by rw [Factors.isPlain_bare, h.plain e he p hp], by rw [Factors.isFinite_bare, h.finite e he p hp]⟩

/-- The kernel is one of the regular realm. -/
theorem holds_regular (hk : k.Offers (Expr.isRegular k.table)) :
    (Realm.regular k.table k.settings).Holds k := ⟨rfl, rfl, hk⟩

theorem operands_of_isMultiply {c : Number} {l : Tally} {x : Expr}
    (hl : ∀ q ∈ l, IsFactor precision q)
    (h : (productOf c (factorsFrom l)).isApplicationOf "Multiply" = true)
    (hx : x ∈ (productOf c (factorsFrom l)).operands) :
    x.isApplicationOf "Multiply" = false ∧ x.isApplicationOf "Negate" = false := by
  have hfactors : ∀ x ∈ factorsFrom l,
      x.isApplicationOf "Multiply" = false ∧ x.isApplicationOf "Negate" = false := by
    intro x hx
    obtain ⟨q, hq, rfl⟩ := List.mem_map.1 hx
    exact (hl q hq).operator.2
  unfold productOf at h hx
  split at h
  next => cases h
  next hnumber =>
    rw [if_neg hnumber] at hx
    split at h
    next hone =>
      rw [if_pos hone] at hx
      rcases hfs : factorsFrom l with _ | ⟨f, _ | ⟨g, rest⟩⟩
      · simp [hfs] at hnumber
      · rw [hfs] at h hfactors
        rw [bareProduct, (hfactors f (by simp)).1] at h
        cases h
      · rw [hfs] at hx hfactors
        exact hfactors x hx
    next hone =>
      rw [if_neg hone] at hx
      split at h
      next => cases h
      next hneg =>
        rw [if_neg hneg] at hx
        rcases List.mem_cons.1 hx with rfl | hx
        · exact ⟨rfl, rfl⟩
        · exact hfactors x hx

theorem normal_product (hk : k.Offers (Expr.isRegular k.table))
    (hops : ∀ e ∈ ops, e.isRegular k.table = true) (hplain : IsPlainProduct ops) {r : Expr}
    {k' : Kernel} (hr : (mul ops).run.run k = (.ok r, k')) :
    (r.isApplicationOf "Multiply" = true → ∀ x ∈ r.operands,
      x.isApplicationOf "Multiply" = false ∧ x.isApplicationOf "Negate" = false) ∧
    ∃ r' k'', (mul [r]).run.run k' = (.ok r', k'') ∧ r'.same r = true := by
  obtain ⟨hk', hgood, hproduct⟩ := (Realm.yields_mul (holds_regular hk) hops).of_run hr
  have hproduct := (Realm.eq_product hproduct).symm
  obtain ⟨p, hp, -⟩ := exists_of_bind_ok hproduct
  obtain ⟨p', hp', rfl⟩ := exists_collectFactors hops hp
  obtain ⟨c, l, hc, hl, -, hform⟩ := product_normal (isPure_of_isRegular hops) hp
    (by rw [Factors.isPlain_bare, hplain p' hp']) hproduct
  constructor
  · intro hmul x hx
    rw [← Expr.isApplicationOf_bare, hform] at hmul
    have hx : x.bare ∈ (productOf c (factorsFrom l)).operands := by
      rw [← hform, Expr.operands_bare]
      exact List.mem_map_of_mem hx
    simpa using operands_of_isMultiply hl.factors hmul hx
  · have hsame := product_productOf hl hc
    rw [← hform] at hsame
    have hyields := Realm.yields_mul hk' (List.forall_mem_singleton.2 hgood)
    obtain ⟨r', k'', hr', -, hgood', hproduct'⟩ | ⟨f, k'', -, hfault⟩ := hyields.ok_or_fault
    · refine ⟨r', k'', hr', (Expr.same_iff (Realm.exact hgood')).2 ?_⟩
      have heq := Realm.eq_product hproduct'
      rw [List.map_singleton, hsame] at heq
      exact Except.ok.inj heq
    · have heq := Realm.eq_product hfault
      rw [List.map_singleton, hsame] at heq
      cases heq

/-- What the summands are collected into is what the bare summands are gathered into. -/
theorem exists_collectTerms (hk : k.Offers (Expr.isRegular k.table))
    (hops : ∀ e ∈ ops, e.isRegular k.table = true) {s : Terms}
    (hs : gather k.table.registeredComplexity k.settings.precision (ops.map Expr.bare) {} = .ok s) :
    ∃ s' k', (collectTerms ops {}).run.run k = (.ok s', k') ∧ s = s'.bare := by
  have hyields := Realm.yields_collectTerms (holds_regular hk) hops (s := {}) ⟨rfl, by simp⟩
  obtain ⟨s', k', hr, -, -, hcollected⟩ | ⟨f, k', -, hfault⟩ := hyields.ok_or_fault
  · have heq := Realm.eq_gather hcollected
    change _ = gather _ _ _ {} at heq
    exact ⟨s', k', hr, Except.ok.inj (hs.symm.trans heq.symm)⟩
  · have heq := Realm.eq_gather hfault
    change _ = gather _ _ _ {} at heq
    rw [hs] at heq
    cases heq

theorem normal_sum (hk : k.Offers (Expr.isRegular k.table))
    (hops : ∀ e ∈ ops, e.isRegular k.table = true) (hplain : IsPlainSum k ops) {r : Expr}
    {k' : Kernel} (hr : (add ops).run.run k = (.ok r, k')) :
    (r.isApplicationOf "Add" = true → ∀ x ∈ r.operands, x.isApplicationOf "Add" = false) ∧
    ((termsOf r).Pairwise fun x y => ∀ v w m n k₁ k₂,
      (splitCoefficient x).run.run k' = (.ok (v, some m), k₁) →
      (splitCoefficient y).run.run k' = (.ok (w, some n), k₂) → m.same n = false) ∧
    ∃ r' k'', (add [r]).run.run k' = (.ok r', k'') ∧ r'.same r = true := by
  obtain ⟨hk', hgood, hsum⟩ := (Realm.yields_add (holds_regular hk) hops).of_run hr
  have hflat : ∀ e ∈ Expr.flatten (some "Add") ops, e.isRegular k.table = true :=
    (Realm.regular k.table k.settings).good_flatten hops
  rw [Expr.flatten_map_bare] at hsum
  obtain ⟨s, l, es, hgather, harranged, hform, hbare⟩ := Realm.exists_isSum (hplain.summands hops) hsum
  have hperm : l.Perm (s.monomials.filter fun q => !q.2.isZero) :=
    harranged ▸ arrangeTerms_perm _ _
  obtain ⟨s', k₁, hs', rfl⟩ := exists_collectTerms hk hflat hgather
  have hadd : ∀ q ∈ l, q.2.isOne = true → q.1.isApplicationOf "Add" = false := by
    intro q hq hone
    obtain ⟨hq, -⟩ := List.mem_filter.1 (hperm.mem_iff.1 hq)
    obtain ⟨q', hq', rfl⟩ := List.mem_map.1 hq
    simpa using hplain.terms s' k₁ hs' q' hq' hone
  obtain ⟨hleaves, hflatten⟩ := hform.flatten hadd
  have hterms : (termsOf r).map Expr.bare = summandsWith s'.bare.constant es := by
    rw [← termsOf_bare, hbare, sumOf_eq, termsOf_bareSum (summandsWith_ne_nil _ _) hleaves]
  refine ⟨fun hr x hx => ?_, ?_, ?_⟩
  · have hmem : x.bare ∈ summandsWith s'.bare.constant es := by
      rw [← hterms, termsOf, if_pos hr]
      exact List.mem_map_of_mem hx
    simpa using not_add_of_isLeaf (hleaves x.bare hmem)
  · have hne := hform.monomials_ne
    rw [← hterms, List.pairwise_map] at hne
    refine hne.imp_of_mem fun {x y} hx hy hne v w m n k₁ k₂ hrx hry => ?_
    obtain ⟨-, -, hm, hsx⟩ := (Realm.yields_splitCoefficient hk' (isRegular_of_mem_termsOf hgood hx)).of_run hrx
    obtain ⟨-, -, -, hsy⟩ := (Realm.yields_splitCoefficient hk' (isRegular_of_mem_termsOf hgood hy)).of_run hry
    have hbare : m.bare ≠ n.bare := hne v w m.bare n.bare (Realm.eq_splitProduct hsx).symm
      (Realm.eq_splitProduct hsy).symm
    rw [← Bool.not_eq_true, Expr.same_iff (Realm.exact (hm m rfl))]
    exact hbare
  · have hyields := Realm.yields_add hk' (List.forall_mem_singleton.2 hgood)
    rw [List.map_singleton, hbare] at hyields
    obtain ⟨r', k'', hr', -, hgood', hsum'⟩ | ⟨f, k'', -, hfault⟩ := hyields.ok_or_fault
    · refine ⟨r', k'', hr', (Expr.same_iff (Realm.exact hgood')).2 ?_⟩
      rw [hbare]
      exact Except.ok.inj (Realm.sum_of_isSum hform hadd hsum')
    · cases Realm.sum_of_isSum hform hadd hfault

/-- **Products and sums are normal forms**: flat, with different monomials, and left alone by
another multiplication or addition, as long as no base that comes apart is left with exponent one and
no sum with coefficient one. -/
theorem normal_form (k : Kernel) (ops : List Expr) (hk : k.Offers (Expr.isRegular k.table))
    (hops : ∀ e ∈ ops, e.isRegular k.table = true) :
    (IsPlainProduct ops → ∀ r k', (mul ops).run.run k = (.ok r, k') →
      (r.isApplicationOf "Multiply" = true → ∀ x ∈ r.operands,
        x.isApplicationOf "Multiply" = false ∧ x.isApplicationOf "Negate" = false) ∧
      ∃ r' k'', (mul [r]).run.run k' = (.ok r', k'') ∧ r'.same r = true) ∧
    (IsPlainSum k ops → ∀ r k', (add ops).run.run k = (.ok r, k') →
      (r.isApplicationOf "Add" = true → ∀ x ∈ r.operands, x.isApplicationOf "Add" = false) ∧
      ((termsOf r).Pairwise fun x y => ∀ v w m n k₁ k₂,
        (splitCoefficient x).run.run k' = (.ok (v, some m), k₁) →
        (splitCoefficient y).run.run k' = (.ok (w, some n), k₂) → m.same n = false) ∧
      ∃ r' k'', (add [r]).run.run k' = (.ok r', k'') ∧ r'.same r = true) :=
  ⟨fun hplain _ _ hr => normal_product hk hops hplain hr,
    fun hplain _ _ hr => normal_sum hk hops hplain hr⟩

/-- What is collected from the summands is gathered from the bare summands. -/
theorem gather_of_collectTerms (hk : k.Offers (Expr.isRegular k.table))
    (hops : ∀ e ∈ ops, e.isRegular k.table = true) {s : Terms} {k' : Kernel}
    (hs : (collectTerms ops {}).run.run k = (.ok s, k')) :
    gather k.table.registeredComplexity k.settings.precision (ops.map Expr.bare) {} = .ok s.bare :=
  (Realm.eq_gather ((Realm.yields_collectTerms (holds_regular hk) hops ⟨rfl, by simp⟩).of_run
    hs).2.2).symm

end Main

/-! ## Multiples of one factor -/

theorem isNormal_singleton {q : Expr × Number} (h : IsFactor precision q) :
    IsNormal κ precision [q] :=
  ⟨by simpa using h, by simp⟩

/-- A multiple of a factor is counted among the terms. -/
theorem gather_multiple {q : Expr × Number} {c : Number} {rest : List Expr} {s : Terms} {l : Tally}
    (h : IsFactor precision q) (hc : c.isProper = true) (hz : c.isZero = false)
    (hl : tally (writtenPower q.1 q.2) c s.monomials = .ok l) :
    gather κ precision (productOf c (factorsFrom [q]) :: rest) s =
      gather κ precision rest { s with monomials := l } :=
  gather_term (splitProduct_productOf (isNormal_singleton h) (by simp) hc hz) hl

theorem tally_ofInt (e : Expr) (m n : ℤ) :
    tally e (.ofInt n) [(e, .ofInt m)] = .ok [(e, .ofInt (m + n))] := by
  rw [tally, if_pos (Expr.same_refl e), Number.add_ofInt]
  rfl

/-- `x + 1`. -/
def successor : Expr :=
  .application "Add" [.symbol "x" none true, .number .one] (some 6) true

/-- `3 * (x + 1)`, `-(x + 1)` and `y ^ 2 + 3`. -/
def plainOperands : List Expr :=
  [.application "Multiply" [.number (.ofInt 3), successor] (some 7) true,
    .application "Negate" [successor] (some 8) true,
    .application "Add" [.application "Power" [.symbol "y" none true, .number (.ofInt 2)] (some 11) true,
      .number (.ofInt 3)] (some 6) true]

theorem plainOperands_defined : ∀ e ∈ plainOperands, Defined ones .noEmptyPower e := by
  have hx : ∀ n, Defined ones .noEmptyPower (.symbol n none true) := fun n => .symbol n none true
  have hsuccessor : Defined ones .noEmptyPower successor :=
    .plain _ _ (by decide) rfl (by simpa using ⟨hx "x", .ofInt 1⟩)
  have hsquare := Defined.power (n := 2) (some 11) true (hx "y") (by simp) rfl
  simp only [plainOperands, List.forall_mem_cons]
  refine ⟨.plain _ _ (by decide) rfl ?_, .negation _ _ hsuccessor, .plain _ _ (by decide) rfl ?_,
    by simp⟩
  · simpa using ⟨.ofInt 3, hsuccessor⟩
  · simpa using ⟨hsquare, .ofInt 3⟩

theorem gather_plainOperands : gather κ precision
    ((Expr.flatten (some "Add") plainOperands).map Expr.bare) {} =
      .ok ⟨.ofInt 3, [(successor.bare, .ofInt 2),
        (.node "Power" [.symbol "y" none true, .number (.ofInt 2)], .one)]⟩ := by
  have hsuccessor : IsFactor precision (successor.bare, .one) :=
    ⟨⟨rfl, rfl⟩, rfl, rfl, rfl, fun _ => rfl⟩
  have hsquare : IsFactor precision (.symbol "y" none true, .ofInt 2) :=
    ⟨⟨rfl, rfl⟩, rfl, rfl, rfl, by simp⟩
  change gather κ precision [productOf (.ofInt 3) (factorsFrom [(successor.bare, .one)]),
    productOf (.ofInt (-1)) (factorsFrom [(successor.bare, .one)]),
    productOf .one (factorsFrom [(.symbol "y" none true, .ofInt 2)]), .number (.ofInt 3)] {} = _
  rw [gather_multiple hsuccessor rfl rfl (tally_of_new rfl (by simp)),
    gather_multiple hsuccessor rfl rfl (tally_ofInt _ _ _),
    gather_multiple hsquare rfl rfl (tally_of_new rfl (by
      rw [List.forall_mem_singleton]
      rfl))]
  exact gather_number rfl _

theorem normal_form_plainOperands :
    (∃ r k', (mul plainOperands).run.run standard = (.ok r, k') ∧
      ∃ r' k'', (mul [r]).run.run k' = (.ok r', k'') ∧ r'.same r = true) ∧
    ∃ r k', (add plainOperands).run.run standard = (.ok r, k') ∧
      (r.isApplicationOf "Add" = true → ∀ x ∈ r.operands, x.isApplicationOf "Add" = false) ∧
      ∃ r' k'', (add [r]).run.run k' = (.ok r', k'') ∧ r'.same r = true := by
  have hpool : standard.Offers (Expr.isRegular standard.table) :=
    offers_of_isEmpty (List.isEmpty_iff.2 standard_pool)
  have hregular : ∀ e ∈ plainOperands, e.isRegular standard.table = true := by
    rw [standard_eq]
    decide +kernel
  have hk := Realm.free_holds standard
  have hproper : ∀ e ∈ plainOperands, e.isOver Number.isProper = true := by decide
  have hsafe : (Realm.free standard).Safe ones .noEmptyPower Never :=
    .inr fun _ => Realm.not_collapses
  obtain ⟨r, k₁, hr, -⟩ := (Realm.gives_mul (E := Never) hk hproper plainOperands_defined).exists_run
  obtain ⟨s, k₂, hs, -⟩ := (Realm.gives_add hsafe hk hproper plainOperands_defined).exists_run
  have hproduct := (normal_form standard plainOperands hpool hregular).1
    (forall_of_all (by decide +kernel)) r k₁ hr
  have hplain : ∀ e ∈ Expr.flatten (some "Add") plainOperands,
      (collectFactors (Expr.flatten (some "Multiply") [e]) {}).toOption.all
        (fun p => p.isPlain && p.isFinite) = true := by decide +kernel
  have hsum := (normal_form standard plainOperands hpool hregular).2 ⟨fun e he p hp =>
    (Bool.and_eq_true_iff.1 (forall_of_all (hplain e he) p hp)).1, fun e he p hp =>
    (Bool.and_eq_true_iff.1 (forall_of_all (hplain e he) p hp)).2, fun s k' hs q hq hone => ?_⟩ s k₂ hs
  · exact ⟨⟨r, k₁, hr, hproduct.2⟩, s, k₂, hs, hsum.1, hsum.2.2⟩
  · have hgather := gather_of_collectTerms hpool (by rw [standard_eq]; decide +kernel) hs
    rw [gather_plainOperands, Except.ok.injEq] at hgather
    have hq : (q.1.bare, q.2) ∈ s.bare.monomials := List.mem_map_of_mem hq
    rw [← hgather, List.mem_pair, Prod.mk.injEq, Prod.mk.injEq] at hq
    obtain ⟨-, hq⟩ | ⟨hq, -⟩ := hq
    · simp [hq] at hone
    · rw [← Expr.isApplicationOf_bare, hq]
      rfl

/-- `a + b`. -/
def pair : Expr := .node "Add" [.symbol "a" none true, .symbol "b" none true]

/-- `2 * (a + b)`, `-(a + b)` and `c`. -/
def pairTwiceOnce : List Expr :=
  [.node "Multiply" [.number (.ofInt 2), pair], .node "Negate" [pair], .symbol "c" none true]

theorem pairTwiceOnce_defined : ∀ e ∈ pairTwiceOnce, Defined ones .noEmptyPower e := by
  have hx : ∀ n, Defined ones .noEmptyPower (.symbol n none true) := fun n => .symbol n none true
  have hpair : Defined ones .noEmptyPower pair :=
    .plain _ _ (by decide) rfl (by simpa using ⟨hx "a", hx "b"⟩)
  simp only [pairTwiceOnce, List.forall_mem_cons]
  refine ⟨.plain _ _ (by decide) rfl ?_, .negation _ _ hpair, hx "c", by simp⟩
  simpa using ⟨.ofInt 2, hpair⟩

theorem isFactor_symbol (n : String) : IsFactor precision (.symbol n none true, .one) :=
  ⟨⟨rfl, rfl⟩, rfl, rfl, rfl, fun _ => rfl⟩

theorem isFactor_pair : IsFactor precision (pair, .one) := ⟨⟨rfl, rfl⟩, rfl, rfl, rfl, fun _ => rfl⟩

theorem gather_pairTwiceOnce : gather κ precision pairTwiceOnce {} =
    .ok ⟨.zero, [(pair, .one), (.symbol "c" none true, .one)]⟩ := by
  change gather κ precision [productOf (.ofInt 2) (factorsFrom [(pair, .one)]),
    productOf (.ofInt (-1)) (factorsFrom [(pair, .one)]),
    productOf .one (factorsFrom [(.symbol "c" none true, .one)])] {} = _
  rw [gather_multiple isFactor_pair rfl rfl (tally_of_new rfl (by simp)),
    gather_multiple isFactor_pair rfl rfl (tally_ofInt _ _ _),
    gather_multiple (isFactor_symbol "c") rfl rfl (tally_of_new rfl (by
      rw [List.forall_mem_singleton]
      rfl))]
  rfl

/-- A summand that a sum was written from is among what is written. -/
theorem IsSum.mem_summands {c : Number} {l : Tally} {es : List Expr} {q : Expr × Number} {e : Expr}
    (h : IsSum κ precision c l es) (hq : q ∈ l)
    (he : product κ precision [.number q.2, q.1] = .ok e) : e ∈ es := by
  obtain ⟨x, hx, hproduct⟩ := exists_of_forall₂ h.summands hq
  rw [he, Except.ok.injEq] at hproduct
  exact hproduct ▸ hx

/-- **A sum within a sum**: `2 * (a + b)`, `-(a + b)` and `c` add up to the sum of `a + b` and `c`,
in which `a + b` stands as a summand. -/
theorem sum_in_sum :
    ∃ ops k r k', (boxAll [.list [.name "Multiply", .int 2, .list [.name "Add", .name "a", .name "b"]],
        .list [.name "Negate", .list [.name "Add", .name "a", .name "b"]], .name "c"]).run.run standard =
          (.ok ops, k) ∧
      (∀ e ∈ ops, e.isCanonical = true ∧ e.isValid = true ∧ e.isExact = true) ∧
      (add ops).run.run k = (.ok r, k') ∧ r.isApplicationOf "Add" = true ∧
      ∃ x ∈ r.operands, x.isApplicationOf "Add" = true := by
  obtain ⟨ops, k, hbox, h⟩ := run_of_any_after (x := boxAll [.list [.name "Multiply", .int 2,
      .list [.name "Add", .name "a", .name "b"]], .list [.name "Negate",
      .list [.name "Add", .name "a", .name "b"]], .name "c"]) (k := standard)
    (p := fun ops k => Expr.identicalAll (Expr.bareAll ops) pairTwiceOnce &&
      (k.pool ++ ops).all (Expr.isRegular k.table) &&
        ops.all fun e => e.isCanonical && e.isValid && e.isExact)
    (by rw [standard_eq]; decide +kernel)
  simp only [Bool.and_eq_true, List.all_append, List.all_eq_true] at h
  obtain ⟨⟨hbare, hpool, hregular⟩, hops⟩ := h
  have hbare : ops.map Expr.bare = pairTwiceOnce := by
    rw [← Expr.bareAll_eq_map]
    exact Expr.eq_of_identicalAll (by decide) hbare
  have hoffers : k.Offers (Expr.isRegular k.table) := fun x hx _ _ _ => hpool x hx
  have hsafe : (Realm.regular k.table k.settings).Safe ones .noEmptyPower Never :=
    .inr fun _ => Realm.not_collapses
  have hdefined : ∀ e ∈ ops, Defined ones .noEmptyPower e := fun e he => .of_bare
    (pairTwiceOnce_defined _ (hbare ▸ List.mem_map_of_mem he))
  obtain ⟨r, k', hr, -⟩ := (Realm.gives_add hsafe (holds_regular hoffers) hregular hdefined).exists_run
  refine ⟨ops, k, r, k', hbox, fun e he => by simpa [and_assoc] using hops e he, hr, ?_⟩
  have hplain : ∀ e ∈ pairTwiceOnce, IsPure e ∧ IsPlainSummand e := by
    have hall : ∀ e ∈ pairTwiceOnce, (multiplyAll (piecesAll (Expr.flatten (some "Multiply") [e]))
        {}).toOption.all (fun p => p.isPlain && p.isFinite) = true := by decide +kernel
    exact fun e he => ⟨isPure_of_isRegular hregular e (hbare ▸ he), fun p hp =>
      Bool.and_eq_true_iff.1 (forall_of_all (hall e he) p hp)⟩
  obtain ⟨-, -, hsum⟩ := (Realm.yields_add (holds_regular hoffers) hregular).of_run hr
  rw [hbare] at hsum
  change (Realm.regular k.table k.settings).Sum pairTwiceOnce (.ok r.bare) at hsum
  obtain ⟨s, l, es, hgather, harranged, hform, hsumOf⟩ := Realm.exists_isSum hplain hsum
  have hperm : l.Perm (s.monomials.filter fun q => !q.2.isZero) :=
    harranged ▸ arrangeTerms_perm _ _
  rw [gather_pairTwiceOnce, Except.ok.injEq] at hgather
  subst hgather
  have hpair : pair ∈ es := hform.mem_summands (q := (pair, .one))
    (hperm.mem_iff.2 (List.mem_cons_self ..))
    (product_number_bareProduct (isNormal_singleton isFactor_pair) rfl (by simp))
  have hlength : es.length = 2 := by rw [← hform.summands.length_eq, hperm.length_eq]; rfl
  have hnode : r.bare = .node "Add" es := by
    rw [hsumOf]
    obtain ⟨x, y, rfl⟩ := List.length_eq_two.1 hlength
    rfl
  rw [← Expr.isApplicationOf_bare, hnode]
  refine ⟨rfl, ?_⟩
  have hoperands : es = r.operands.map Expr.bare := by
    rw [← Expr.operands_bare, hnode]
    rfl
  rw [hoperands] at hpair
  obtain ⟨x, hx, hxpair⟩ := List.mem_map.1 hpair
  refine ⟨x, hx, ?_⟩
  rw [← Expr.isApplicationOf_bare, hxpair]
  rfl

end SymbolicAlgebra.Kernel
