import SymbolicAlgebra.Proofs.ArithmeticValue
import SymbolicAlgebra.Proofs.ComplexProduct

/-!
# Proofs/ComplexSum — sums, opposites and quotients have the right values

Summands come apart into coefficients and monomials, which are tallied, sorted and multiplied out again
(`denotes_add`).  Opposites are products with minus one or sums of opposites (`denotes_neg`); quotients
are unfolded until no operand is one (`denotes_divWithin`).
-/

namespace SymbolicAlgebra.Kernel

variable {K : Type*} [Field K] {I : ComplexInterpretation K} {k : Kernel}

/-! ## Splitting -/

/-- An expression split into a coefficient and what it multiplies, if anything, has the value `x`. -/
structure SplitsInto (I : ComplexInterpretation K) (s : Number × Option Expr) (x : K) : Prop where
  exact : s.1.isExact = true
  monomial : ∀ m, s.2 = some m → Valued I m
  value : s.1.complexValue I * s.2.elim 1 (Expr.complexValue I) = x

theorem splitsInto_some {v : Number} {m : Expr} {x : K} (hv : v.isExact = true) (hm : Valued I m)
    (hx : v.complexValue I * m.complexValue I = x) : SplitsInto I (v, some m) x := by
  refine ⟨hv, ?_, hx⟩
  rintro _ ⟨⟩
  exact hm

theorem splitsInto_one {e : Expr} (h : Valued I e) :
    SplitsInto I (.one, some e) (e.complexValue I) :=
  splitsInto_some rfl h (by rw [Number.complexValue_one, one_mul])

/-- What is split off a number has the value of the other factors. -/
theorem yields_apply_rest {v : Number} {rest : List Expr} (hv : v.isExact = true)
    (hrest : ∀ e ∈ rest, Valued I e) :
    Yields Anyhow (do return (v, some (← apply "Multiply" rest))) k fun s _ =>
      SplitsInto I s (v.complexValue I * (rest.map (Expr.complexValue I)).prod) := by
  refine Yields.bind (denotes_apply fun d => .product d true hrest) fun m k' hm => Yields.pure ?_
  exact splitsInto_some hv hm.1 (by rw [hm.2, Expr.complexValue_product])

/-- **An expression is its coefficient times what it multiplies.** -/
theorem yields_splitCoefficient_value [CharZero K] {e : Expr} (he : Valued I e) :
    Yields Anyhow (splitCoefficient e) k fun s _ => SplitsInto I s (e.complexValue I) := by
  obtain ⟨split, heq, hsplits⟩ := exists_splits e
  rw [heq]
  refine Yields.bind (denotes_mul (by simpa using he)) ?_
  rintro p k₁ ⟨hp, hvalue⟩
  rw [List.map_singleton, List.prod_singleton] at hvalue
  rw [← hvalue]
  have h := hsplits p
  generalize split p = a at h ⊢
  cases h with
  | number v => exact Yields.pure ⟨hp.exact, by simp, by simp⟩
  | negation m rest d c =>
      obtain ⟨m', hops, hm⟩ := hp.negation_inv
      obtain ⟨rfl, rfl⟩ : m = m' ∧ rest = [] := by simpa using hops
      exact Yields.pure (splitsInto_some rfl hm (by simp))
  | multiple v m d c =>
      have hops := (hp.application_inv (by simp)).2
      exact Yields.pure (splitsInto_some (hops (.number v) (by simp)).exact (hops m (by simp))
        (by simp))
  | product v rest d c hrest =>
      have hops := (hp.application_inv (by simp)).2
      rw [List.forall_mem_cons] at hops
      rw [Expr.complexValue_product, List.map_cons, List.prod_cons]
      exact yields_apply_rest hops.1.exact hops.2
  -- the empty product has no coefficient: splitting it is a fault
  | empty => exact trivial
  | whole => exact Yields.pure (splitsInto_one hp)

/-! ## Terms -/

/-- A monomial with an exact coefficient. -/
def ValuedTerm (I : ComplexInterpretation K) (m : Expr) (c : Number) : Prop :=
  Valued I m ∧ c.isExact = true

/-- The value of a monomial with its coefficient. -/
def complexTerm (I : ComplexInterpretation K) (q : Expr × Number) : K :=
  q.2.complexValue I * q.1.complexValue I

/-- Coefficients of one monomial are added. -/
theorem tallied_terms [CharZero K] :
    Tallied (ValuedTerm I) fun q => Multiplicative.ofAdd (complexTerm I q) where
  first := by
    rintro m c s ⟨hm, hc⟩ hs
    obtain ⟨s', hs', hexact, hvalue⟩ := Number.hasValue_add (I := I) (a := .zero) rfl hc
    rw [hs'] at hs
    cases hs
    refine ⟨⟨hm, hexact⟩, congrArg Multiplicative.ofAdd ?_⟩
    rw [complexTerm, hvalue, Number.complexValue_zero, zero_add, complexTerm]
  again := by
    rintro x m c c' s ⟨hx, hc⟩ ⟨-, hc'⟩ hsame hs
    obtain ⟨s', hs', hexact, hvalue⟩ := Number.hasValue_add (I := I) hc hc'
    rw [hs'] at hs
    cases hs
    refine ⟨⟨hx, hexact⟩, congrArg Multiplicative.ofAdd ?_⟩
    change s.complexValue I * x.complexValue I =
      c.complexValue I * x.complexValue I + c'.complexValue I * m.complexValue I
    rw [hvalue, add_mul, (hx.of_same hsame).2]

theorem tally_terms [CharZero K] {m : Expr} {c : Number} (h : ValuedTerm I m c) {l l' : Tally}
    (hl : ∀ q ∈ l, ValuedTerm I q.1 q.2) (hl' : tally m c l = .ok l') :
    (∀ q ∈ l', ValuedTerm I q.1 q.2) ∧
      (l'.map (complexTerm I)).sum = (l.map (complexTerm I)).sum + complexTerm I (m, c) := by
  obtain ⟨hterms, hvalue⟩ := tallied_terms.total h hl hl'
  have htotal : ∀ l : Tally, (l.map fun q => Multiplicative.ofAdd (complexTerm I q)).prod =
      Multiplicative.ofAdd (l.map (complexTerm I)).sum := fun l => by
    rw [ofAdd_list_prod, List.map_map]
    rfl
  rw [htotal, htotal, ← ofAdd_add] at hvalue
  exact ⟨hterms, Multiplicative.ofAdd.injective hvalue⟩

/-- A sum taken apart has the value `x`. -/
structure Terms.Denotes (I : ComplexInterpretation K) (s : Terms) (x : K) : Prop where
  exact : s.constant.isExact = true
  monomials : ∀ q ∈ s.monomials, ValuedTerm I q.1 q.2
  value : s.constant.complexValue I + (s.monomials.map (complexTerm I)).sum = x

/-- **Collecting summands adds their values.** -/
theorem yields_collectTerms_value [CharZero K] : ∀ {es : List Expr} {s : Terms} {x : K} {k : Kernel},
    (∀ e ∈ es, Valued I e) → s.Denotes I x → Yields Anyhow (collectTerms es s) k fun s' _ =>
      s'.Denotes I (x + (es.map (Expr.complexValue I)).sum)
  | [], s, x, k, _, hs => Yields.pure (by simpa using hs)
  | e :: rest, s, x, k, hes, hs => by
      rw [List.forall_mem_cons] at hes
      rw [List.map_cons, List.sum_cons, ← add_assoc]
      refine (yields_splitCoefficient_value hes.1).bind ?_
      rintro ⟨v, m⟩ k₁ ⟨hv, hm, hvalue⟩
      rw [← hvalue]
      cases m with
      | none =>
          refine (yields_number_value (Number.hasValue_add (I := I) hs.exact hv)).bind fun c k₂ hc => ?_
          refine yields_collectTerms_value hes.2 ⟨hc.1, hs.monomials, ?_⟩
          simp [hc.2, ← hs.value, add_right_comm]
      | some m =>
          refine Yields.bind (P := fun l _ => (∀ q ∈ l, ValuedTerm I q.1 q.2) ∧
            (l.map (complexTerm I)).sum =
              (s.monomials.map (complexTerm I)).sum + complexTerm I (m, v))
            (yields_number (fun _ _ => trivial) fun l hl => tally_terms ⟨hm m rfl, hv⟩ hs.monomials hl)
            fun l k₂ hl => ?_
          refine yields_collectTerms_value hes.2 ⟨hs.exact, hl.1, ?_⟩
          rw [hl.2, ← add_assoc, hs.value]
          rfl

/-- Terms with coefficient zero do not count. -/
theorem sum_filter_terms : ∀ {l : Tally}, (∀ q ∈ l, ValuedTerm I q.1 q.2) →
    ((l.filter fun q => !q.2.isZero).map (complexTerm I)).sum = (l.map (complexTerm I)).sum
  | [], _ => rfl
  | q :: rest, h => by
      rw [List.forall_mem_cons] at h
      by_cases h0 : q.2.isZero = true
      · rw [List.filter_cons_of_neg (by simp [h0]), sum_filter_terms h.2, List.map_cons, List.sum_cons,
          complexTerm, Number.complexValue_of_isZero I h.1.2 h0, zero_mul, zero_add]
      · rw [List.filter_cons_of_pos (by simp [h0]), List.map_cons, List.sum_cons, sum_filter_terms h.2,
          List.map_cons, List.sum_cons]

/-! ## Sums -/

theorem denotes_assembleSum {c : Number} {summands : List Expr} (hc : c.isExact = true)
    (hs : ∀ e ∈ summands, Valued I e) : Denotes I (assembleSum c summands) k
      (c.complexValue I + (summands.map (Expr.complexValue I)).sum) := by
  have hmany : ∀ {es : List Expr} {k}, (∀ e ∈ es, Valued I e) →
      Denotes I (apply "Add" es) k (es.map (Expr.complexValue I)).sum := fun hes =>
    (denotes_apply fun d => .sum d true hes).of_eq (Expr.complexValue_sum I _ _ _)
  unfold assembleSum
  split
  next =>
    refine (yields_makeNumber hc).bind fun _ k' h => ?_
    rw [h, pure_bind]
    have hall : ∀ e ∈ summands ++ [Expr.number c], Valued I e :=
      List.forall_mem_append.2 ⟨hs, by simpa using .number hc⟩
    have hvalue : ((summands ++ [Expr.number c]).map (Expr.complexValue I)).sum =
        c.complexValue I + (summands.map (Expr.complexValue I)).sum := by simp [add_comm]
    rw [← hvalue]
    generalize summands ++ [Expr.number c] = es at hall ⊢
    beta_reduce
    split
    next e => exact denotes_pure (hall e (by simp)) (by simp)
    next => exact hmany hall
  next h0 =>
    have hzero : c.isZero = true := by simp_all
    rw [pure_bind, Number.complexValue_of_isZero I hc hzero, zero_add]
    beta_reduce
    split
    next e => exact denotes_pure (hs e (by simp)) (by simp)
    next => exact hmany hs

/-- A term is multiplied out. -/
theorem denotes_term [CharZero K] {q : Expr × Number} (h : ValuedTerm I q.1 q.2) :
    Denotes I (do mul [← makeNumber q.2, q.1]) k (complexTerm I q) := by
  refine (yields_makeNumber h.2).bind fun _ k' hn => ?_
  rw [hn]
  refine (denotes_mul (by simpa using ⟨.number h.2, h.1⟩)).of_eq ?_
  simp [complexTerm]

/-- **Sums have the sum of the values.** -/
theorem denotes_add [CharZero K] {ops : List Expr} (hops : ∀ e ∈ ops, Valued I e) :
    Denotes I (add ops) k (ops.map (Expr.complexValue I)).sum := by
  have hes := Valued.flatten (.inl rfl) hops
  have hempty : ({} : Terms).Denotes I 0 := ⟨rfl, by simp, by simp⟩
  rw [← Valued.flatten_sum hops, add_eq]
  generalize Expr.flatten (some "Add") ops = es at hes
  split
  next => exact (denotes_apply fun d => .sum d true hes).of_eq (Expr.complexValue_sum I es _ _)
  next =>
    refine (yields_collectTerms_value hes hempty).bind fun s k₁ hs => ?_
    rw [if_neg (by simp [Number.isNaN_of_isExact hs.exact])]
    refine (anyhow getTable).bind fun t k₂ _ => ?_
    refine Yields.bind (P := fun l _ => l.Perm (s.monomials.filter fun q => !q.2.isZero))
      (yields_ofExcept (fun _ _ => trivial) fun l hl => sortTerms_perm hl) fun l k₃ hl => ?_
    have hterms : ∀ q ∈ l, ValuedTerm I q.1 q.2 :=
      fun q hq => hs.monomials q (List.mem_filter.1 (hl.mem_iff.1 hq)).1
    refine Yields.bind (Yields.mapM (I := fun _ => True)
      (Q := fun q e => Valued I e ∧ e.complexValue I = complexTerm I q) trivial
      fun q hq k _ => (denotes_term (hterms q hq)).mono fun _ _ h => ⟨trivial, h⟩) ?_
    rintro summands k₄ ⟨-, hsummands⟩
    obtain ⟨hvalued, hvalues⟩ := (List.forall₂_and_left _ _).1 hsummands.flip
    have hsum : summands.map (Expr.complexValue I) = l.map (complexTerm I) := by
      rwa [← List.forall₂_eq_eq_eq, List.forall₂_map_left_iff, List.forall₂_map_right_iff]
    refine (denotes_assembleSum hs.exact hvalued).of_eq ?_
    rw [hsum, (hl.map _).sum_eq, sum_filter_terms hs.monomials, hs.value, zero_add]

/-! ## Opposites -/

/-- An expression times minus one. -/
theorem denotes_negated [CharZero K] {e : Expr} (he : Valued I e) :
    Denotes I (do mul [← negativeOne, e]) k (-e.complexValue I) := by
  refine (yields_makeNumber rfl).bind fun _ k' hn => ?_
  rw [hn]
  refine (denotes_mul (by simpa using ⟨.number rfl, he⟩)).of_eq ?_
  simp

mutual

/-- **Opposites have the opposite value.** -/
theorem denotes_neg [CharZero K] : ∀ {e : Expr} {k : Kernel}, Valued I e →
    Denotes I (neg e) k (-e.complexValue I)
  | .number v, k, he => by
      refine (yields_number_value (Number.hasValue_neg (I := I) he.exact)).bind fun c k' hc => ?_
      exact (denotes_makeNumber hc.1).of_eq hc.2
  | .symbol n d c, k, he => denotes_negated he
  | .error _ _ _, k, he => by cases he
  | .application f ops d c, k, he => by
      unfold neg
      split
      next hf =>
        obtain rfl : f = "Negate" := by simpa using hf
        obtain ⟨a, rfl, ha⟩ := he.negation_inv
        exact denotes_pure ha (by simp)
      next =>
        split
        next => exact (denotes_apply fun d => .negation d true he).of_eq (Expr.complexValue_negation I _ _ _)
        next =>
          split
          next hf =>
            obtain rfl : f = "Add" := by simpa using hf
            rw [Expr.complexValue_sum]
            refine (yields_negAll_value (he.application_inv (by simp)).2).bind fun rs k' hrs => ?_
            exact (denotes_add hrs.1).of_eq hrs.2
          next => exact denotes_negated he

theorem yields_negAll_value [CharZero K] : ∀ {es : List Expr} {k : Kernel}, (∀ e ∈ es, Valued I e) →
    Yields Anyhow (negAll es) k fun rs _ => (∀ e ∈ rs, Valued I e) ∧
      (rs.map (Expr.complexValue I)).sum = -(es.map (Expr.complexValue I)).sum
  | [], k, _ => Yields.pure ⟨by simp, by simp⟩
  | e :: rest, k, hes => by
      rw [List.forall_mem_cons] at hes
      refine Yields.bind (denotes_neg hes.1) fun r k₁ hr => ?_
      refine (yields_negAll_value hes.2).bind fun rs k₂ hrs => Yields.pure ?_
      refine ⟨List.forall_mem_cons.2 ⟨hr.1, hrs.1⟩, ?_⟩
      rw [List.map_cons, List.sum_cons, hr.2, hrs.2, List.map_cons, List.sum_cons, neg_add]

end

/-! ## Quotients -/

/-- A quotient that is written as such. -/
theorem denotes_quotient {a b : Expr} (ha : Valued I a) (hb : Valued I b)
    (hne : b.complexValue I ≠ 0) :
    Denotes I (apply "Divide" [a, b]) k (a.complexValue I / b.complexValue I) := by
  refine (denotes_apply fun d => .quotient d true ha hb hne).of_eq ?_
  rw [Expr.complexValue_quotient]

/-- **Quotients have the quotient of the values**, however many quotients are unfolded. -/
theorem denotes_divWithin [CharZero K] : ∀ (fuel : ℕ) {a b : Expr} {k : Kernel}, Valued I a →
    Valued I b → b.complexValue I ≠ 0 →
    Denotes I (divWithin fuel a b) k (a.complexValue I / b.complexValue I)
  | 0, a, b, k, ha, hb, hne => denotes_quotient ha hb hne
  | fuel + 1, a, b, k, ha, hb, hne => by
      obtain ⟨step, heq, hstep⟩ := exists_divides a b
      rw [heq]
      cases hstep with
      | invalid => exact denotes_quotient ha hb hne
      | plain => exact denotes_quotient ha hb hne
      | lacking => exact trivial
      | numbers x y =>
          refine (yields_number_value (Number.hasValue_div ha.exact hb.exact hne)).bind ?_
          exact fun c k₁ hc => (denotes_makeNumber hc.1).of_eq hc.2
      | byOne _ h =>
          refine denotes_pure ha ?_
          rw [Expr.complexValue_number, Number.complexValue_of_isOne I hb.exact h, div_one]
      | byNumber _ y =>
          refine (yields_number_value (Number.hasValue_inv hb.exact hne)).bind fun c k₁ hc => ?_
          refine (yields_makeNumber hc.1).bind fun _ k₂ hn => ?_
          rw [hn]
          refine (denotes_mul (by simpa using ⟨ha, .number hc.1⟩)).of_eq ?_
          simp [hc.2, div_eq_mul_inv]
      | ofZero _ h =>
          refine (denotes_makeNumber rfl).of_eq ?_
          rw [Number.complexValue_zero, Expr.complexValue_number,
            Number.complexValue_of_isZero I ha.exact h, zero_div]
      | same h =>
          refine (denotes_makeNumber rfl).of_eq ?_
          rw [Number.complexValue_one, ← (ha.of_same h).2, div_self hne]
      | ofQuotient n d rest i c =>
          obtain ⟨n', d', hops, hn, hd, hd0⟩ := ha.quotient_inv
          obtain ⟨rfl, rfl, rfl⟩ : n = n' ∧ d = d' ∧ rest = [] := by simpa using hops
          refine Denotes.bind (denotes_mul (by simpa using ⟨hd, hb⟩)) fun r k₁ hr hvalue => ?_
          have hr0 : r.complexValue I ≠ 0 := by
            rw [hvalue]
            simpa using ⟨hd0, hne⟩
          refine (denotes_divWithin fuel hn hr hr0).of_eq ?_
          rw [hvalue, Expr.complexValue_quotient]
          simp [div_div]
      | byQuotient _ n d rest i c =>
          obtain ⟨n', d', hops, hn, hd, hd0⟩ := hb.quotient_inv
          obtain ⟨rfl, rfl, rfl⟩ : n = n' ∧ d = d' ∧ rest = [] := by simpa using hops
          have hn0 : n.complexValue I ≠ 0 := by
            rintro hn0
            rw [Expr.complexValue_quotient, hn0, zero_div] at hne
            exact hne rfl
          refine Denotes.bind (denotes_mul (by simpa using ⟨ha, hd⟩)) fun r k₁ hr hvalue => ?_
          refine (denotes_divWithin fuel hr hn hn0).of_eq ?_
          rw [hvalue, Expr.complexValue_quotient]
          simp [div_div_eq_mul_div]

theorem denotes_div [CharZero K] {a b : Expr} (ha : Valued I a) (hb : Valued I b)
    (hne : b.complexValue I ≠ 0) :
    Denotes I (div a b) k (a.complexValue I / b.complexValue I) := denotes_divWithin _ ha hb hne

end SymbolicAlgebra.Kernel
