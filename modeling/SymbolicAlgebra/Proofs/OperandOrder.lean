import SymbolicAlgebra.Proofs.Counting
import SymbolicAlgebra.Proofs.NormalForm

/-!
# Proofs/OperandOrder — the order of operands does not matter

A product does not depend on the order of its factors at all (`product_perm`).  The terms of a sum
are arranged by the doubles of their exponents; these tell normal monomials apart if the exponents
are whole numbers of at most 53 bits (`monomialCode_injective`), so that sums of such terms do not
depend on the order of their operands either.

`operand_order` puts the two together; `tied_powers` shows two powers of one base that are told apart
by nothing but their order.
-/

namespace SymbolicAlgebra.Kernel

open OrderKey

variable {κ : String → ℤ} {precision : Nat}

/-! ## Short exponents -/

/-- Whether a number is whole and at most `2 ^ 53` in absolute value. -/
def isShort : Number → Bool
  | .real (.exact q) => q.den == 1 && decide (q.num.natAbs ≤ 2 ^ 53)
  | _ => false

theorem exists_of_isShort {v : Number} (h : isShort v = true) :
    ∃ n : ℤ, v = .ofInt n ∧ n.natAbs ≤ 2 ^ 53 := by
  match v, h with
  | .real (.exact q), h =>
      rw [isShort, Bool.and_eq_true, beq_iff_eq, decide_eq_true_eq] at h
      refine ⟨q.num, ?_, h.2⟩
      have hq : (q.num : ℚ) = q := Rat.coe_int_num_of_den_eq_one h.1
      rw [Number.ofInt_eq_ofRat, hq]
      rfl

/-- Whether all exponents are short. -/
def Factors.isShort (p : Factors) : Bool := p.powers.all fun q => Kernel.isShort q.2

@[simp] theorem Factors.isShort_bare (p : Factors) : p.bare.isShort = p.isShort := by
  rw [isShort, isShort, bare, bareTally, List.all_map]
  rfl

theorem hasFiniteDouble_of_isShort {v : Number} (h : isShort v = true) :
    hasFiniteDouble v = true := by
  obtain ⟨n, rfl, hn⟩ := exists_of_isShort h
  exact Double.isFinite_ofRat_intCast hn

theorem Factors.isFinite_of_isShort {p : Factors} (h : p.isShort = true) : p.isFinite = true :=
  List.all_eq_true.2 fun q hq => hasFiniteDouble_of_isShort (List.all_eq_true.1 h q hq)

/-! ## Codes of monomials -/

/-- A monomial with short exponents. -/
structure IsShortMonomial (κ : String → ℤ) (precision : Nat) (l : Tally) (m : Expr) : Prop where
  monomial : IsMonomialOf κ precision l m
  short : ∀ q ∈ l, isShort q.2 = true

/-- **Codes tell powers with short exponents apart.** -/
theorem factorsCode_injective : ∀ {l l' : Tally}, (∀ q ∈ l, IsPure q.1 ∧ isShort q.2 = true) →
    (∀ q ∈ l', IsPure q.1 ∧ isShort q.2 = true) →
    factorsCode κ (l.map doubled) = factorsCode κ (l'.map doubled) → l = l'
  | [], [], _, _, _ => rfl
  | [], q :: rest, _, _, h => by
      simp [factorsCode, whole_inj] at h
  | q :: rest, [], _, _, h => by
      simp [factorsCode, whole_inj] at h
  | (b, v) :: rest, (b', v') :: rest', hl, hl', h => by
      rw [List.forall_mem_cons] at hl hl'
      obtain ⟨n, rfl, hn⟩ := exists_of_isShort hl.1.2
      obtain ⟨n', rfl, hn'⟩ := exists_of_isShort hl'.1.2
      change whole 1 :: (code κ b ++ double (-Double.ofRat n) :: factorsCode κ (rest.map doubled)) =
        whole 1 :: (code κ b' ++ double (-Double.ofRat n') :: factorsCode κ (rest'.map doubled)) at h
      rw [List.cons.injEq] at h
      obtain ⟨hbase, h⟩ := code_append_injective hl.1.1.exact hl'.1.1.exact h.2
      rw [hl.1.1.isBare, hl'.1.1.isBare] at hbase
      change b = b' at hbase
      rw [List.cons.injEq] at h
      have hexponent : n = n' := by
        refine Double.neg_ofRat_intCast_inj hn hn' ?_
        rw [Double.beq_iff (by rw [Double.isNaN_neg, Double.isNaN_ofRat])
          (by rw [Double.isNaN_neg, Double.isNaN_ofRat])]
        simpa [double] using h.1
      rw [hbase, hexponent, factorsCode_injective hl.2 hl'.2 h.2]

/-- **Codes tell monomials with short exponents apart.** -/
theorem monomialCode_injective {l l' : Tally} {m m' : Expr} (h : IsShortMonomial κ precision l m)
    (h' : IsShortMonomial κ precision l' m') (hcode : monomialCode κ m = monomialCode κ m') :
    m = m' := by
  rw [h.monomial.monomialCode, h'.monomial.monomialCode, termCode, termCode, List.cons.injEq] at hcode
  have hl : l = l' := factorsCode_injective
    (fun q hq => ⟨(h.monomial.normal.factors q hq).pure, h.short q hq⟩)
    (fun q hq => ⟨(h'.monomial.normal.factors q hq).pure, h'.short q hq⟩) hcode.2
  rw [h.monomial.eq, h'.monomial.eq, hl]

/-! ## Collected terms -/

/-- Whether a summand is plain and its exponents are short. -/
def IsShortSummand (e : Expr) : Prop :=
  ∀ p, multiplyAll (piecesAll (Expr.flatten (some "Multiply") [e])) {} = .ok p →
    p.isPlain = true ∧ p.isShort = true

theorem IsShortSummand.isPlain {e : Expr} (h : IsShortSummand e) : IsPlainSummand e :=
  fun p hp => ⟨(h p hp).1, Factors.isFinite_of_isShort (h p hp).2⟩

/-- The monomial that a short summand is split into is short. -/
theorem splitProduct_short {e m : Expr} (he : IsPure e) (hshort : IsShortSummand e) {v : Number}
    (h : splitProduct κ precision e = .ok (v, some m)) : ∃ l, IsShortMonomial κ precision l m := by
  obtain ⟨r, hr, hsplit⟩ := exists_of_bind_ok h
  obtain ⟨p, hp, -⟩ := exists_of_bind_ok hr
  obtain ⟨hpp, hps⟩ := hshort p hp
  obtain ⟨c, l, hc, hl, hsub, rfl⟩ := product_normal (by simpa using he) hp hpp hr
  rw [splitOf_productOf hl hc, Except.ok.injEq, Prod.mk.injEq] at hsplit
  obtain ⟨-, hsplit⟩ := hsplit
  have hshort : ∀ q ∈ l, isShort q.2 = true := fun q hq => List.all_eq_true.1 hps q (hsub q hq)
  split at hsplit
  next => cases hsplit
  next hne =>
    cases hsplit
    refine ⟨l, ⟨hl, ?_, fun q hq => hasFiniteDouble_of_isShort (hshort q hq), rfl⟩, hshort⟩
    rintro rfl
    simp at hne

/-- What a summand adds to the constant. -/
def constantOf (κ : String → ℤ) (precision : Nat) (e : Expr) : ℚ × ℚ :=
  match splitProduct κ precision e with
  | .ok (v, none) => parts v
  | _ => 0

/-- What a summand adds to the coefficient of a monomial. -/
def coefficientOf (κ : String → ℤ) (precision : Nat) (x e : Expr) : ℚ × ℚ :=
  match splitProduct κ precision e with
  | .ok (v, some m) => if m.same x then parts v else 0
  | _ => 0

/-- What summands are collected into: the constant, and the coefficient of each monomial. -/
structure IsCollectedFrom (κ : String → ℤ) (precision : Nat) (es : List Expr) (s s' : Terms) :
    Prop where
  collected : IsCollected κ precision s'
  constant : parts s'.constant = parts s.constant + (es.map (constantOf κ precision)).sum
  keys : ∀ x, x ∈ keys s'.monomials ↔
    x ∈ keys s.monomials ∨ ∃ e ∈ es, ∃ v, splitProduct κ precision e = .ok (v, some x)
  total : ∀ x, total s'.monomials x =
    total s.monomials x + (es.map (coefficientOf κ precision x)).sum

theorem IsCollected.isCounted {s : Terms} (h : IsCollected κ precision s) :
    IsCounted s.monomials where
  pure := fun q hq => (h.terms q hq).monomial.isPure
  proper := fun q hq => (h.terms q hq).proper
  nodup := h.nodup

/-- A first summand is collected before the others. -/
theorem IsCollectedFrom.cons {e : Expr} {rest : List Expr} {s s₁ s' : Terms}
    (h₁ : IsCollectedFrom κ precision [e] s s₁) (h : IsCollectedFrom κ precision rest s₁ s') :
    IsCollectedFrom κ precision (e :: rest) s s' where
  collected := h.collected
  constant := by
    rw [h.constant, h₁.constant]
    simp [add_assoc]
  keys x := by
    rw [h.keys, h₁.keys]
    simp [or_assoc]
  total x := by
    rw [h.total, h₁.total]
    simp [add_assoc]

/-- One summand. -/
theorem exists_gather_cons {e : Expr} {s : Terms} {y : Number × Option Expr} (he : IsPure e)
    (hplain : IsPlainSummand e) (hsplit : splitProduct κ precision e = .ok y)
    (hs : IsCollected κ precision s) :
    ∃ s', (∀ rest, gather κ precision (e :: rest) s = gather κ precision rest s') ∧
      IsCollectedFrom κ precision [e] s s' := by
  obtain ⟨v, m⟩ := y
  obtain ⟨hv, hm⟩ := splitProduct_ok he hplain hsplit
  cases m with
  | none =>
      refine ⟨{ s with constant := ofPair (parts s.constant + parts v) }, fun rest =>
        gather_constant hsplit (add_parts hs.constant hv),
        ⟨isProper_ofPair _, hs.terms, hs.nodup⟩, ?_, by simp [hsplit], fun x => ?_⟩
      · simp [parts_ofPair, constantOf, hsplit]
      · simp [coefficientOf, hsplit]
  | some m =>
      obtain ⟨l, hl, hcounted, hkeys, htotal⟩ := hs.isCounted.tally (hm m rfl).isPure hv
      have hterms : ∀ q ∈ l, IsTerm κ precision q := by
        intro q hq
        refine ⟨?_, hcounted.proper q hq⟩
        rcases (hkeys q.1).1 (List.mem_map_of_mem hq) with hold | hnew
        · obtain ⟨q', hq', heq⟩ := List.mem_map.1 hold
          exact heq ▸ (hs.terms q' hq').monomial
        · exact hnew ▸ hm m rfl
      refine ⟨{ s with monomials := l }, fun rest => gather_term hsplit hl,
        ⟨hs.constant, hterms, hcounted.nodup⟩, by simp [constantOf, hsplit], fun x => ?_, fun x => ?_⟩
      · rw [hkeys]
        simp [hsplit, eq_comm]
      · rw [htotal]
        simp [coefficientOf, hsplit]

/-- **Plain summands that can be multiplied out are collected.** -/
theorem exists_gather : ∀ {es : List Expr} {s : Terms},
    (∀ e ∈ es, IsPure e ∧ IsPlainSummand e ∧ ∃ y, splitProduct κ precision e = .ok y) →
    IsCollected κ precision s →
    ∃ s', gather κ precision es s = .ok s' ∧ IsCollectedFrom κ precision es s s'
  | [], s, _, hs => ⟨s, rfl, hs, by simp, by simp, by simp⟩
  | e :: rest, s, hes, hs => by
      rw [List.forall_mem_cons] at hes
      obtain ⟨⟨hpure, hplain, y, hsplit⟩, hrest⟩ := hes
      obtain ⟨s₁, hgather, h₁⟩ := exists_gather_cons hpure hplain hsplit hs
      obtain ⟨s', hs', h⟩ := exists_gather hrest h₁.collected
      exact ⟨s', (hgather rest).trans hs', h₁.cons h⟩

/-- What was gathered was split. -/
theorem splits_of_gather : ∀ {es : List Expr} {s s' : Terms},
    gather κ precision es s = .ok s' → ∀ e ∈ es, ∃ y, splitProduct κ precision e = .ok y
  | [], _, _, _ => by simp
  | e :: rest, s, s', h => by
      obtain ⟨⟨v, m⟩, hsplit, h⟩ := exists_of_bind_ok h
      refine List.forall_mem_cons.2 ⟨⟨_, hsplit⟩, ?_⟩
      cases m with
      | none =>
          obtain ⟨c, -, h⟩ := exists_of_bind_ok h
          exact splits_of_gather h
      | some m =>
          obtain ⟨l, -, h⟩ := exists_of_bind_ok h
          exact splits_of_gather h

/-- **Summands in another order are collected into the same constant and the same terms**, which are
arranged in one way. -/
theorem gather_perm {es es' : List Expr} (hes : ∀ e ∈ es, IsPure e ∧ IsShortSummand e)
    (h : es.Perm es') {s : Terms} (hs : gather κ precision es {} = .ok s) :
    ∃ s', gather κ precision es' {} = .ok s' ∧ s'.constant = s.constant ∧
      arrangeTerms κ (s'.monomials.filter fun q => !q.2.isZero) =
        arrangeTerms κ (s.monomials.filter fun q => !q.2.isZero) := by
  have hsplits := splits_of_gather hs
  have hall : ∀ e ∈ es, IsPure e ∧ IsPlainSummand e ∧ ∃ y, splitProduct κ precision e = .ok y :=
    fun e he => ⟨(hes e he).1, (hes e he).2.isPlain, hsplits e he⟩
  obtain ⟨_, hgather, hfrom⟩ := exists_gather (s := {}) hall ⟨rfl, by simp, by simp⟩
  obtain rfl := Except.ok.inj (hs.symm.trans hgather)
  obtain ⟨s', hs', hfrom'⟩ := exists_gather (s := {})
    (fun e he => hall e (h.mem_iff.2 he)) ⟨rfl, by simp, by simp⟩
  have hcounted := hfrom.collected.isCounted
  have hperm : s.monomials.Perm s'.monomials := by
    refine hcounted.perm hfrom'.collected.isCounted (fun x => ?_) fun x => ?_
    · rw [hfrom.keys, hfrom'.keys]
      simp [h.mem_iff]
    · rw [hfrom.total, hfrom'.total, (h.map _).sum_eq]
  refine ⟨s', hs', ?_, ?_⟩
  · refine eq_of_parts hfrom'.collected.constant hfrom.collected.constant ?_
    rw [hfrom.constant, hfrom'.constant, (h.map _).sum_eq]
  · have hshort : ∀ q ∈ s.monomials, ∃ l, IsShortMonomial κ precision l q.1 := by
      intro q hq
      rcases (hfrom.keys q.1).1 (List.mem_map_of_mem hq) with hnone | ⟨e, he, v, hsplit⟩
      · cases hnone
      · exact splitProduct_short (hes e he).1 (hes e he).2 hsplit
    refine (mergeSort_eq_of_perm (hperm.filter _) fun p hp q hq hcode => ?_).symm
    obtain ⟨hp, -⟩ := List.mem_filter.1 hp
    obtain ⟨hq, -⟩ := List.mem_filter.1 hq
    obtain ⟨l, hl⟩ := hshort p hp
    obtain ⟨l', hl'⟩ := hshort q hq
    exact hcounted.eq_of_key hp hq (monomialCode_injective hl hl' hcode)

/-! ## The main result -/

/-- The summands of a sum are plain, and their exponents are short. -/
structure IsShortSum (ops : List Expr) : Prop where
  plain : ∀ e ∈ Expr.flatten (some "Add") ops, IsPlainProduct [e]
  short : ∀ e ∈ Expr.flatten (some "Add") ops, ∀ p,
    collectFactors (Expr.flatten (some "Multiply") [e]) {} = .ok p → p.isShort = true

section Main

variable {k : Kernel} {ops ops' : List Expr}

theorem IsShortSum.summands {t : DefinitionTable} (h : IsShortSum ops)
    (hops : ∀ e ∈ ops, e.isRegular t = true) :
    ∀ x ∈ (Expr.flatten (some "Add") ops).map Expr.bare, IsPure x ∧ IsShortSummand x :=
  forall_bare_summands hops fun e he p hp =>
    ⟨by rw [Factors.isPlain_bare, h.plain e he p hp], by rw [Factors.isShort_bare, h.short e he p hp]⟩

/-- Operands that are collected into the terms of a sum are added up to that sum. -/
theorem exists_add {t : DefinitionTable} {settings : Settings}
    (hk : (Realm.regular t settings).Holds k) (hops : ∀ e ∈ ops, e.isRegular t = true) {c : Number}
    {l : Tally} {summands : List Expr}
    (h : IsSum t.registeredComplexity settings.precision c l summands) {s : Terms}
    (hs : gather t.registeredComplexity settings.precision
      ((Expr.flatten (some "Add") ops).map Expr.bare) {} = .ok s) (hc : s.constant = c)
    (hl : arrangeTerms t.registeredComplexity (s.monomials.filter fun q => !q.2.isZero) = l) :
    ∃ r k', (add ops).run.run k = (.ok r, k') ∧ (Realm.regular t settings).Holds k' ∧
      r.isRegular t = true ∧ r.bare = sumOf c summands := by
  have hyields := Realm.yields_add hk hops
  rw [Expr.flatten_map_bare] at hyields
  obtain ⟨r, k', hr, hk', hgood, hsum⟩ | ⟨f, k', -, hfault⟩ := hyields.ok_or_fault
  · exact ⟨r, k', hr, hk', hgood, Except.ok.inj (Realm.sum_of_gather h hs hc hl hsum)⟩
  · cases Realm.sum_of_gather h hs hc hl hfault

theorem mul_perm (hk : k.Offers (Expr.isRegular k.table))
    (hops : ∀ e ∈ ops, e.isRegular k.table = true) (hperm : ops.Perm ops') {r : Expr} {k₁ : Kernel}
    (hr : (mul ops).run.run k = (.ok r, k₁)) :
    ∃ r' k₂, (mul ops').run.run k₁ = (.ok r', k₂) ∧ r'.same r = true := by
  obtain ⟨hk₁, -, hproduct⟩ := (Realm.yields_mul (holds_regular hk) hops).of_run hr
  have hproduct := Realm.eq_product hproduct
  rw [product_perm (isPure_of_isRegular hops) (hperm.map _)] at hproduct
  have hyields := Realm.yields_mul hk₁ fun e he => hops e (hperm.mem_iff.2 he)
  obtain ⟨r', k₂, hr', -, hgood, hproduct'⟩ | ⟨f, k₂, -, hfault⟩ := hyields.ok_or_fault
  · refine ⟨r', k₂, hr', (Expr.same_iff (Realm.exact hgood)).2 ?_⟩
    exact Except.ok.inj ((Realm.eq_product hproduct').trans hproduct.symm)
  · cases (Realm.eq_product hfault).trans hproduct.symm

theorem add_perm (hk : k.Offers (Expr.isRegular k.table))
    (hops : ∀ e ∈ ops, e.isRegular k.table = true) (hperm : ops.Perm ops') (hshort : IsShortSum ops)
    {r : Expr} {k₁ : Kernel} (hr : (add ops).run.run k = (.ok r, k₁)) :
    ∃ r' k₂, (add ops').run.run k₁ = (.ok r', k₂) ∧ r'.same r = true := by
  obtain ⟨hk₁, -, hsum⟩ := (Realm.yields_add (holds_regular hk) hops).of_run hr
  rw [Expr.flatten_map_bare] at hsum
  have hsummands := hshort.summands hops
  obtain ⟨s, l, summands, hgather, hl, hform, hbare⟩ :=
    Realm.exists_isSum (fun x hx => ⟨(hsummands x hx).1, (hsummands x hx).2.isPlain⟩) hsum
  obtain ⟨s', hgather', hc, harranged⟩ :=
    gather_perm hsummands ((flatten_perm hperm).map Expr.bare) hgather
  obtain ⟨r', k₂, hr', -, hgood, hbare'⟩ := exists_add hk₁
    (fun e he => hops e (hperm.mem_iff.2 he)) hform hgather' hc (harranged.trans hl.symm)
  exact ⟨r', k₂, hr', (Expr.same_iff (Realm.exact (R := Realm.regular k.table k.settings) hgood)).2
    (hbare'.trans hbare.symm)⟩

/-- **The order of operands does not matter**: a product is the same in every order, and so is a sum
of plain terms with short exponents. -/
theorem operand_order (k : Kernel) (ops ops' : List Expr)
    (hk : k.Offers (Expr.isRegular k.table)) (hops : ∀ e ∈ ops, e.isRegular k.table = true)
    (hperm : ops.Perm ops') :
    (∀ r k₁, (mul ops).run.run k = (.ok r, k₁) →
      ∃ r' k₂, (mul ops').run.run k₁ = (.ok r', k₂) ∧ r'.same r = true) ∧
    (IsShortSum ops → ∀ r k₁, (add ops).run.run k = (.ok r, k₁) →
      ∃ r' k₂, (add ops').run.run k₁ = (.ok r', k₂) ∧ r'.same r = true) :=
  ⟨fun _ _ hr => mul_perm hk hops hperm hr, fun hshort _ _ hr => add_perm hk hops hperm hshort hr⟩

end Main

theorem operand_order_plainOperands :
    (∃ r k₁ r' k₂, (mul plainOperands).run.run standard = (.ok r, k₁) ∧
      (mul plainOperands.reverse).run.run k₁ = (.ok r', k₂) ∧ r'.same r = true) ∧
    ∃ r k₁ r' k₂, (add plainOperands).run.run standard = (.ok r, k₁) ∧
      (add plainOperands.reverse).run.run k₁ = (.ok r', k₂) ∧ r'.same r = true := by
  have hpool : standard.Offers (Expr.isRegular standard.table) :=
    offers_of_isEmpty (List.isEmpty_iff.2 standard_pool)
  have hregular : ∀ e ∈ plainOperands, e.isRegular standard.table = true := by
    rw [standard_eq]
    decide +kernel
  have hk := Realm.free_holds standard
  have hproper : ∀ e ∈ plainOperands, e.isOver Number.isProper = true := by decide
  have hsafe : (Realm.free standard).Safe ones .noEmptyPower Never :=
    .inr fun _ => Realm.not_collapses
  have hshort : ∀ e ∈ Expr.flatten (some "Add") plainOperands,
      (collectFactors (Expr.flatten (some "Multiply") [e]) {}).toOption.all
        (fun p => p.isPlain && p.isShort) = true := by decide +kernel
  obtain ⟨r, k₁, hr, -⟩ := (Realm.gives_mul (E := Never) hk hproper plainOperands_defined).exists_run
  obtain ⟨s, k₂, hs, -⟩ := (Realm.gives_add hsafe hk hproper plainOperands_defined).exists_run
  obtain ⟨hmul, hadd⟩ := operand_order standard plainOperands plainOperands.reverse hpool hregular
    (List.reverse_perm _).symm
  obtain ⟨r', k₃, hr', hsame⟩ := hmul r k₁ hr
  obtain ⟨s', k₄, hs', hsame'⟩ := hadd ⟨fun e he p hp =>
    (Bool.and_eq_true_iff.1 (forall_of_all (hshort e he) p hp)).1, fun e he p hp =>
    (Bool.and_eq_true_iff.1 (forall_of_all (hshort e he) p hp)).2⟩ s k₂ hs
  exact ⟨⟨r, k₁, r', k₃, hr, hr', hsame⟩, s, k₂, s', k₄, hs, hs', hsame'⟩

/-! ## Powers told apart by nothing but their order -/

/-- `x ^ n`. -/
def powerOf (n : ℤ) : Expr := .node "Power" [.symbol "x" none true, .number (.ofInt n)]

/-- `2 ^ 53` and `1 + 2 ^ 53` have the same double. -/
theorem monomialCode_powerOf :
    monomialCode κ (powerOf (1 + 2 ^ 53)) = monomialCode κ (powerOf (2 ^ 53)) := rfl

theorem isMonomialOf_powerOf {n : ℤ} (hzero : (Number.ofInt n).isZero = false)
    (hone : (Number.ofInt n).isOne = false) (hfinite : hasFiniteDouble (.ofInt n) = true) :
    IsMonomialOf κ precision [(.symbol "x" none true, .ofInt n)] (powerOf n) where
  normal := isNormal_singleton ⟨⟨rfl, rfl⟩, rfl, hzero, rfl, by simp [hone]⟩
  nonempty := by simp
  finite := by simpa using hfinite
  eq := by
    rw [factorsFrom, List.map_singleton, bareProduct, writtenPower, if_neg (by simp [hone])]
    rfl

section Tied

variable {m n : ℤ} {e e' : Expr}

theorem product_one_powerOf
    (h : IsMonomialOf κ precision [(.symbol "x" none true, .ofInt n)] (powerOf n)) :
    product κ precision [.number .one, powerOf n] = .ok (powerOf n) := by
  rw [h.product rfl, h.eq]
  rfl

theorem splitProduct_powerOf
    (h : IsMonomialOf κ precision [(.symbol "x" none true, .ofInt n)] (powerOf n)) :
    splitProduct κ precision (powerOf n) = .ok (.one, some (powerOf n)) :=
  splitProduct_of_isTerm (q := (powerOf n, .one)) ⟨⟨_, h⟩, rfl⟩ rfl (product_one_powerOf h)

/-- Another factor `x` raises the exponent. -/
theorem splitProduct_times_powerOf
    (h : IsMonomialOf κ precision [(.symbol "x" none true, .ofInt (1 + n))] (powerOf (1 + n))) :
    splitProduct κ precision (.node "Multiply" [.symbol "x" none true, powerOf n]) =
      .ok (.one, some (powerOf (1 + n))) := by
  have hfirst : tally (.symbol "x" none true) (.ofInt 1) [] =
      .ok [(.symbol "x" none true, .ofInt 1)] := tally_of_new rfl (by simp)
  have hfactors : multiplyAll (piecesAll (Expr.flatten (some "Multiply")
      [.node "Multiply" [.symbol "x" none true, powerOf n]])) {} =
        .ok ⟨.one, [(.symbol "x" none true, .ofInt (1 + n))]⟩ := by
    change multiplyAll [.power (.symbol "x" none true) (.ofInt 1),
      .power (.symbol "x" none true) (.ofInt n)] {} = _
    rw [multiplyAll_cons, Piece.multiply, Factors.count, hfirst]
    change multiplyAll [.power (.symbol "x" none true) (.ofInt n)]
      ⟨.one, [(.symbol "x" none true, .ofInt 1)]⟩ = _
    rw [multiplyAll_singleton, Piece.multiply, Factors.count, tally_ofInt]
    rfl
  rw [splitProduct, product_of_multiplyAll h.normal hfactors]
  change splitOf _ = _
  rw [splitOf_productOf h.normal rfl, h.eq]
  rfl

theorem isSum_powers
    (hm : IsMonomialOf κ precision [(.symbol "x" none true, .ofInt m)] (powerOf m))
    (hn : IsMonomialOf κ precision [(.symbol "x" none true, .ofInt n)] (powerOf n))
    (hne : powerOf m ≠ powerOf n) (hle : monomialCode κ (powerOf m) ≤ monomialCode κ (powerOf n)) :
    IsSum κ precision .zero [(powerOf m, .one), (powerOf n, .one)] [powerOf m, powerOf n] where
  constant := rfl
  terms := by
    simp only [List.forall_mem_cons]
    exact ⟨⟨⟨⟨_, hm⟩, rfl⟩, rfl⟩, ⟨⟨⟨_, hn⟩, rfl⟩, rfl⟩, by simp⟩
  nodup := by simpa [keys] using hne
  ordered := by simpa using hle
  summands := .cons (product_one_powerOf hm) (.cons (product_one_powerOf hn) .nil)

theorem gather_powers (he : splitProduct κ precision e = .ok (.one, some (powerOf m)))
    (he' : splitProduct κ precision e' = .ok (.one, some (powerOf n)))
    (hne : powerOf m ≠ powerOf n) :
    gather κ precision [e, e'] {} = .ok ⟨.zero, [(powerOf m, .one), (powerOf n, .one)]⟩ := by
  have hnew : (powerOf m).same (powerOf n) = false := by
    rw [← Bool.not_eq_true, Expr.same_iff rfl]
    exact hne
  rw [gather_term he (tally_of_new rfl (by simp)),
    gather_term he' (tally_of_new rfl (by simpa using hnew))]
  rfl

end Tied

/-- `x ^ (2 ^ 53)` and `x * x ^ (2 ^ 53)`. -/
def tiedPowers : List Expr :=
  [powerOf (2 ^ 53), .node "Multiply" [.symbol "x" none true, powerOf (2 ^ 53)]]

/-- The terms of the sum of tied powers stand in the order of the operands. -/
theorem add_tiedPowers {k : Kernel} {ops : List Expr} (hk : k.Offers (Expr.isRegular k.table))
    (hops : ∀ e ∈ ops, e.isRegular k.table = true) (hbare : ops.map Expr.bare = tiedPowers) :
    ∃ r k₁ r' k₂, (add ops).run.run k = (.ok r, k₁) ∧ (add ops.reverse).run.run k₁ = (.ok r', k₂) ∧
      r'.same r = false := by
  have hm : IsMonomialOf k.table.registeredComplexity k.settings.precision
      [(.symbol "x" none true, .ofInt (2 ^ 53))] (powerOf (2 ^ 53)) :=
    isMonomialOf_powerOf (by decide +kernel) (by decide +kernel) (by decide +kernel)
  have hn : IsMonomialOf k.table.registeredComplexity k.settings.precision
      [(.symbol "x" none true, .ofInt (1 + 2 ^ 53))] (powerOf (1 + 2 ^ 53)) :=
    isMonomialOf_powerOf (by decide +kernel) (by decide +kernel) (by decide +kernel)
  have hne : powerOf (2 ^ 53) ≠ powerOf (1 + 2 ^ 53) := fun h => by
    have hsame : (powerOf (2 ^ 53)).same (powerOf (1 + 2 ^ 53)) = false := by decide +kernel
    rw [h, Expr.same_refl] at hsame
    cases hsame
  have hsum := isSum_powers hm hn hne monomialCode_powerOf.ge
  have hsum' := isSum_powers hn hm hne.symm monomialCode_powerOf.le
  have hflat : (Expr.flatten (some "Add") ops).map Expr.bare = tiedPowers := by
    rw [← Expr.flatten_map_bare, hbare]
    rfl
  have hflat' : (Expr.flatten (some "Add") ops.reverse).map Expr.bare = tiedPowers.reverse := by
    rw [← Expr.flatten_map_bare, List.map_reverse, hbare]
    rfl
  have hsplit := splitProduct_powerOf hm
  have hsplit' := splitProduct_times_powerOf hn
  have hgather := gather_powers hsplit hsplit' hne
  have hgather' := gather_powers hsplit' hsplit hne.symm
  change gather _ _ tiedPowers {} = _ at hgather
  change gather _ _ tiedPowers.reverse {} = _ at hgather'
  rw [← hflat] at hgather
  rw [← hflat'] at hgather'
  obtain ⟨r, k₁, hr, hk₁, -, hsumOf⟩ := exists_add (holds_regular hk) hops hsum hgather rfl
    (mergeSort_of_sorted hsum.ordered)
  obtain ⟨r', k₂, hr', -, hgood, hsumOf'⟩ := exists_add hk₁ (fun e he => hops e (by simpa using he))
    hsum' hgather' rfl (mergeSort_of_sorted hsum'.ordered)
  refine ⟨r, k₁, r', k₂, hr, hr', ?_⟩
  rw [← Bool.not_eq_true, Expr.same_iff (Realm.exact (R := Realm.regular k.table k.settings) hgood),
    hsumOf, hsumOf']
  intro h
  have hnode : Expr.node "Add" [powerOf (1 + 2 ^ 53), powerOf (2 ^ 53)] =
      .node "Add" [powerOf (2 ^ 53), powerOf (1 + 2 ^ 53)] := h
  simp only [Expr.node, Expr.application.injEq, List.cons.injEq] at hnode
  exact hne hnode.2.1.1.symm

/-- **Powers told apart by nothing but their order**: the sum of `x ^ (2 ^ 53)` and
`x * x ^ (2 ^ 53)` has its terms in the order of the operands, as the doubles of `2 ^ 53` and
`1 + 2 ^ 53` are the same. -/
theorem tied_powers :
    ∃ ops k r k₁ r' k₂,
      (boxAll [.list [.name "Power", .name "x", .int (2 ^ 53)],
        .list [.name "Multiply", .name "x", .list [.name "Power", .name "x", .int (2 ^ 53)]]]).run.run
          standard = (.ok ops, k) ∧
      (∀ e ∈ ops, e.isCanonical = true ∧ e.isValid = true ∧ e.isExact = true) ∧
      (add ops).run.run k = (.ok r, k₁) ∧ (add ops.reverse).run.run k₁ = (.ok r', k₂) ∧
      r'.same r = false := by
  obtain ⟨ops, k, hbox, h⟩ := run_of_any_after (x := boxAll [.list [.name "Power", .name "x",
      .int (2 ^ 53)], .list [.name "Multiply", .name "x",
      .list [.name "Power", .name "x", .int (2 ^ 53)]]]) (k := standard)
    (p := fun ops k => Expr.identicalAll (Expr.bareAll ops) tiedPowers &&
      (k.pool ++ ops).all (Expr.isRegular k.table) &&
        ops.all fun e => e.isCanonical && e.isValid && e.isExact)
    (by rw [standard_eq]; decide +kernel)
  simp only [Bool.and_eq_true, List.all_append, List.all_eq_true] at h
  obtain ⟨⟨hbare, hpool, hregular⟩, hops⟩ := h
  have hbare : ops.map Expr.bare = tiedPowers := by
    rw [← Expr.bareAll_eq_map]
    exact Expr.eq_of_identicalAll (by decide) hbare
  obtain ⟨r, k₁, r', k₂, hr, hr', hsame⟩ :=
    add_tiedPowers (fun x hx _ _ _ => hpool x hx) hregular hbare
  exact ⟨ops, k, r, k₁, r', k₂, hbox, fun e he => by simpa [and_assoc] using hops e he, hr, hr', hsame⟩

end SymbolicAlgebra.Kernel
