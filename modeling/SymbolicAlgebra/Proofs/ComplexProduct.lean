import SymbolicAlgebra.Proofs.ComplexValue
import SymbolicAlgebra.Proofs.ProductValue

/-!
# Proofs/ComplexProduct — products have the product of the values

`Denotes` says of an action that what it gives, if it gives anything, has a certain value, whatever the
kernel that it is run in.  A product is followed from its flattened factors through coefficient and
collected powers (`collectFactors_denotes`) and back to an expression (`denotes_mul`).
-/

namespace SymbolicAlgebra

variable {K : Type*} [Field K] {I : ComplexInterpretation K}

/-! ## Flattened operands -/

namespace Valued

theorem spliced {a f : String} {ops : List Expr} {d : Option Nat} {c : Bool}
    (ha : a = "Add" ∨ a = "Multiply") (h : Valued I (.application f ops d c))
    (hf : Expr.isSpliced (some a) f = true) : f = a ∧ ∀ x ∈ ops, Valued I x := by
  rcases Expr.isSpliced_some.1 hf with rfl | rfl
  · exact (h.application_inv (by simp)).1.elim
  · exact ⟨rfl, (h.application_inv (by rcases ha with rfl | rfl <;> simp)).2⟩

theorem flatten {a : String} (ha : a = "Add" ∨ a = "Multiply") {es : List Expr}
    (h : ∀ e ∈ es, Valued I e) : ∀ e ∈ Expr.flatten (some a) es, Valued I e :=
  Expr.forall_flatten (fun _ _ _ _ hf he => (spliced ha he hf).2) h

theorem flatten_prod {es : List Expr} (h : ∀ e ∈ es, Valued I e) :
    ((Expr.flatten (some "Multiply") es).map (Expr.complexValue I)).prod =
      (es.map (Expr.complexValue I)).prod := by
  refine Expr.flatten_invariant (F := fun es => (es.map (Expr.complexValue I)).prod) (g := (· * ·))
    (by simp) (fun _ _ _ _ hf he => (spliced (.inr rfl) he hf).2) (fun f ops d c hf he => ?_) h
  obtain rfl := (spliced (.inr rfl) he hf).1
  simp

theorem flatten_sum {es : List Expr} (h : ∀ e ∈ es, Valued I e) :
    ((Expr.flatten (some "Add") es).map (Expr.complexValue I)).sum =
      (es.map (Expr.complexValue I)).sum := by
  refine Expr.flatten_invariant (F := fun es => (es.map (Expr.complexValue I)).sum) (g := (· + ·))
    (by simp) (fun _ _ _ _ hf he => (spliced (.inl rfl) he hf).2) (fun f ops d c hf he => ?_) h
  obtain rfl := (spliced (.inl rfl) he hf).1
  simp

theorem sum {ops : List Expr} (d : Option Nat) (c : Bool) (h : ∀ e ∈ ops, Valued I e) :
    Valued I (.application "Add" ops d c) := .arithmetic d c trivial h

theorem product {ops : List Expr} (d : Option Nat) (c : Bool) (h : ∀ e ∈ ops, Valued I e) :
    Valued I (.application "Multiply" ops d c) := .arithmetic d c trivial h

theorem negation {a : Expr} (d : Option Nat) (c : Bool) (h : Valued I a) :
    Valued I (.application "Negate" [a] d c) := .arithmetic d c ⟨a, rfl⟩ (by simpa using h)

theorem quotient {a b : Expr} (d : Option Nat) (c : Bool) (ha : Valued I a) (hb : Valued I b)
    (hne : b.complexValue I ≠ 0) : Valued I (.application "Divide" [a, b] d c) :=
  .arithmetic d c ⟨a, b, rfl, hne⟩ (by simpa using ⟨ha, hb⟩)

theorem power {b : Expr} {n : Int} (d : Option Nat) (c : Bool) (hb : Valued I b)
    (hne : n < 0 → b.complexValue I ≠ 0) :
    Valued I (.application "Power" [b, .number (.ofInt n)] d c) :=
  .arithmetic d c ⟨b, n, rfl, hne⟩ (by simpa using ⟨hb, ofInt n⟩)

/-- The operand of a negation. -/
theorem negation_inv {ops : List Expr} {d : Option Nat} {c : Bool}
    (h : Valued I (.application "Negate" ops d c)) : ∃ a, ops = [a] ∧ Valued I a := by
  obtain ⟨⟨a, rfl⟩, hops⟩ := h.application_inv (by simp)
  exact ⟨a, rfl, hops a (by simp)⟩

/-- The operands of a quotient. -/
theorem quotient_inv {ops : List Expr} {d : Option Nat} {c : Bool}
    (h : Valued I (.application "Divide" ops d c)) :
    ∃ a b, ops = [a, b] ∧ Valued I a ∧ Valued I b ∧ b.complexValue I ≠ 0 := by
  obtain ⟨⟨a, b, rfl, hne⟩, hops⟩ := h.application_inv (by simp)
  exact ⟨a, b, rfl, hops a (by simp), hops b (by simp), hne⟩

/-- The operands of a power. -/
theorem power_inv {ops : List Expr} {d : Option Nat} {c : Bool}
    (h : Valued I (.application "Power" ops d c)) :
    ∃ b n, ops = [b, .number (.ofInt n)] ∧ Valued I b ∧ (n < 0 → b.complexValue I ≠ 0) := by
  obtain ⟨⟨b, n, rfl, hne⟩, hops⟩ := h.application_inv (by simp)
  exact ⟨b, n, rfl, hops b (by simp), hne⟩

end Valued

namespace Kernel

variable {E : Fault → Prop} {k : Kernel}

/-! ## Results -/

/-- What the action gives, if it gives anything, has the value `x`. -/
def Denotes (I : ComplexInterpretation K) (a : Action Expr) (k : Kernel) (x : K) : Prop :=
  Yields Anyhow a k fun r _ => Valued I r ∧ r.complexValue I = x

theorem denotes_pure {e : Expr} {x : K} (h : Valued I e) (hx : e.complexValue I = x) :
    Denotes I (pure e) k x := Yields.pure ⟨h, hx⟩

theorem Denotes.of_eq {a : Action Expr} {x y : K} (h : Denotes I a k x) (hxy : x = y) :
    Denotes I a k y := hxy ▸ h

theorem Denotes.bind {a : Action Expr} {f : Expr → Action Expr} {x y : K} (ha : Denotes I a k x)
    (hf : ∀ r k, Valued I r → r.complexValue I = x → Denotes I (f r) k y) :
    Denotes I (a >>= f) k y := Yields.bind ha fun r k' h => hf r k' h.1 h.2

/-- What is interned has a structure of the same value. -/
theorem denotes_intern {e : Expr} (h : Valued I e) : Denotes I (intern e) k (e.complexValue I) :=
  yields_intern (fun _ _ hsame => h.of_same hsame) ⟨h, rfl⟩

theorem denotes_apply {f : String} {ops : List Expr}
    (h : ∀ d, Valued I (.application f ops d true)) :
    Denotes I (apply f ops) k ((Expr.node f ops).complexValue I) :=
  yields_apply ((denotes_intern (h _)).of_eq (Expr.complexValue_of_bare I rfl))

/-- An exact number is interned as it is. -/
theorem yields_makeNumber {v : Number} (hv : v.isExact = true) :
    Yields E (makeNumber v) k fun r _ => r = .number v := by
  refine yields_intern (fun x _ hsame => ?_) rfl
  have hbare := (Expr.same_iff (e := .number v) hv).1 hsame
  cases x <;> simp_all [Expr.bare]

theorem denotes_makeNumber {v : Number} (hv : v.isExact = true) :
    Denotes I (makeNumber v) k (v.complexValue I) := denotes_intern (.number hv)

/-- A number whose arithmetic has a value. -/
theorem yields_number_value {r : Except NumberFault Number} {x : K} (h : Number.HasValue I r x) :
    Yields E (number r) k fun c _ => c.isExact = true ∧ c.complexValue I = x := by
  obtain ⟨c, hc, hexact, hx⟩ := h
  exact yields_number_ok hc ⟨hexact, hx⟩

theorem value_of_liftNumber {r : Except NumberFault Number} {x : K} {c : Number}
    (h : Number.HasValue I r x) (hc : liftNumber r = .ok c) :
    c.isExact = true ∧ c.complexValue I = x := by
  obtain ⟨c', hr, hexact, hx⟩ := h
  obtain rfl : c' = c := Except.ok.inj (hr.symm.trans (eq_ok_of_liftNumber hc))
  exact ⟨hexact, hx⟩

/-! ## Collected powers -/

/-- A base with an exponent that make up a power with a value. -/
def ValuedPower (I : ComplexInterpretation K) (b : Expr) (e : Number) : Prop :=
  ∃ n : ℤ, e = .ofInt n ∧ Valued I b ∧ (n < 0 → b.complexValue I ≠ 0)

/-- The value of a base with a whole exponent. -/
def complexPower (I : ComplexInterpretation K) (q : Expr × Number) : K :=
  q.1.complexValue I ^ q.2.integer?.getD 0

@[simp] theorem complexPower_ofInt (b : Expr) (n : ℤ) :
    complexPower I (b, .ofInt n) = b.complexValue I ^ n := by
  rw [complexPower, Number.integer?_ofInt, Option.getD_some]

theorem complexPower_one (b : Expr) : complexPower I (b, .one) = b.complexValue I :=
  (complexPower_ofInt b 1).trans (zpow_one _)

theorem valuedPower_one {b : Expr} (h : Valued I b) : ValuedPower I b .one :=
  ⟨1, rfl, h, fun h => absurd h (by decide)⟩

/-- Exponents of one base are added, which is right also for a base that is zero, because then none of
them is negative. -/
theorem tallied_powers : Tallied (ValuedPower I) (complexPower I) where
  first := by
    rintro e _ s ⟨n, rfl, hn⟩ hs
    rw [Number.zero_add_of_isProper rfl] at hs
    cases hs
    exact ⟨⟨n, rfl, hn⟩, rfl⟩
  again := by
    rintro x e _ _ s ⟨m, rfl, hx, hm⟩ ⟨n, rfl, -, hn⟩ hsame hs
    rw [Number.add_ofInt] at hs
    cases hs
    rw [(hx.of_same hsame).2] at hn
    refine ⟨⟨m + n, rfl, hx, fun h => ?_⟩, ?_⟩
    · by_cases hneg : m < 0
      · exact hm hneg
      · exact hn (by omega)
    · rw [complexPower_ofInt, complexPower_ofInt, complexPower_ofInt, (hx.of_same hsame).2,
        zpow_add_of_ne_zero hm hn]

/-- A product taken apart has the value `x`. -/
structure Factors.Denotes (I : ComplexInterpretation K) (p : Factors) (x : K) : Prop where
  exact : p.coefficient.isExact = true
  powers : ∀ q ∈ p.powers, ValuedPower I q.1 q.2
  value : p.coefficient.complexValue I * (p.powers.map (complexPower I)).prod = x

/-- A number goes into the coefficient. -/
theorem Factors.Denotes.scale {p : Factors} {x y : K} {r : Except NumberFault Number} {c : Number}
    (hp : p.Denotes I x) (hr : Number.HasValue I r (p.coefficient.complexValue I * y))
    (hc : liftNumber r = .ok c) : Factors.Denotes I { p with coefficient := c } (x * y) := by
  obtain ⟨hexact, hvalue⟩ := value_of_liftNumber hr hc
  exact ⟨hexact, hp.powers, by rw [hvalue, mul_right_comm, hp.value]⟩

/-- A power is counted. -/
theorem Factors.Denotes.count {p p' : Factors} {x : K} {b : Expr} {e : Number} (hp : p.Denotes I x)
    (he : ValuedPower I b e) (h : p.count b e = .ok p') :
    p'.Denotes I (x * complexPower I (b, e)) := by
  obtain ⟨l, hl, h⟩ := exists_of_bind_ok h
  cases h
  obtain ⟨hpowers, hvalue⟩ := tallied_powers.total he hp.powers (eq_ok_of_liftNumber hl)
  exact ⟨hp.exact, hpowers, by rw [hvalue, ← mul_assoc, hp.value]⟩

/-! ## Written factors -/

theorem denotes_writePower {b : Expr} {n : ℤ} (hb : Valued I b)
    (hne : n < 0 → b.complexValue I ≠ 0) :
    Denotes I (writePower b (.ofInt n)) k (b.complexValue I ^ n) := by
  unfold writePower
  split
  next h1 =>
    obtain rfl : n = 1 := by simpa using h1
    exact denotes_pure hb (zpow_one _).symm
  next =>
    refine (yields_makeNumber rfl).bind fun _ k' h => ?_
    rw [h]
    exact (denotes_apply fun d => .power d true hb hne).of_eq (Expr.complexValue_power I b n _ _)

/-- **A coefficient and factors make up a product of their value.** -/
theorem denotes_assembleProduct {c : Number} {fs : List Expr} (hc : c.isExact = true)
    (hfs : ∀ e ∈ fs, Valued I e) : Denotes I (assembleProduct c fs) k
      (c.complexValue I * (fs.map (Expr.complexValue I)).prod) := by
  have hsigned : ∀ {p : Expr} {k}, Valued I p →
      p.complexValue I = (fs.map (Expr.complexValue I)).prod →
      Denotes I (if c.isOne then pure p else if c.isNegativeOne then apply "Negate" [p]
        else do apply "Multiply" ((← makeNumber c) :: fs)) k
        (c.complexValue I * (fs.map (Expr.complexValue I)).prod) := by
    intro p k hp hvalue
    split
    next h1 =>
      refine denotes_pure hp ?_
      rw [hvalue, Number.complexValue_of_isOne I hc h1, one_mul]
    next =>
      split
      next h1 =>
        refine (denotes_apply fun d => .negation d true hp).of_eq ?_
        rw [Expr.complexValue_negation, hvalue, Number.complexValue_of_isNegativeOne I hc h1,
          neg_one_mul]
      next =>
        refine (yields_makeNumber hc).bind fun _ k' h => ?_
        rw [h]
        refine (denotes_apply fun d => .product d true (List.forall_mem_cons.2 ⟨.number hc, hfs⟩)).of_eq ?_
        simp
  unfold assembleProduct
  rw [Number.isNaN_of_isExact hc, Bool.false_or]
  split
  next h0 =>
    refine (denotes_makeNumber hc).of_eq ?_
    rw [Number.complexValue_of_isZero I hc h0, zero_mul]
  next =>
    rcases fs with _ | ⟨f, _ | ⟨g, rest⟩⟩
    · exact (denotes_makeNumber hc).of_eq (by simp)
    · exact hsigned (hfs f (by simp)) (by simp)
    · refine Denotes.bind (denotes_apply fun d => .product d true hfs) fun p k' hp hvalue => ?_
      exact hsigned hp (hvalue.trans (Expr.complexValue_product I _ none true))

/-! ## Products -/

mutual

/-- **Collecting a factor multiplies by its value.** -/
theorem collectFactor_denotes [CharZero K] : ∀ {e : Expr} {p p' : Factors} {x : K}, Valued I e →
    p.Denotes I x → collectFactor e p = .ok p' → p'.Denotes I (x * e.complexValue I)
  | .number v, p, p', x, he, hp, h => by
      obtain ⟨c, hc, h⟩ := exists_of_bind_ok h
      cases h
      exact hp.scale (Number.hasValue_mul hp.exact he.exact) hc
  | .symbol n d c, p, p', x, he, hp, h =>
      complexPower_one (I := I) (.symbol n d c) ▸ hp.count (valuedPower_one he) h
  | .error a b x, p, p', _, he, _, _ => by cases he
  | .application f ops d c, p, p', x, he, hp, h => by
      -- what is no negation, product or power is a base of its own, with exponent one
      have hbase : ∀ {p'}, p.count (.application f ops d c) .one = .ok p' →
          p'.Denotes I (x * (Expr.application f ops d c).complexValue I) := fun h =>
        complexPower_one (I := I) (.application f ops d c) ▸ hp.count (valuedPower_one he) h
      unfold collectFactor at h
      split at h
      next hf =>
        obtain rfl : f = "Negate" := by simpa using hf
        obtain ⟨a, rfl, ha⟩ := he.negation_inv
        obtain ⟨c', hc, h⟩ := exists_of_bind_ok h
        have hneg : Number.HasValue I p.coefficient.neg (p.coefficient.complexValue I * -1) := by
          rw [mul_neg_one]
          exact Number.hasValue_neg hp.exact
        have hall := collectFactors_denotes (by simpa using ha) (hp.scale hneg hc) h
        simpa using hall
      next =>
        split at h
        next hf =>
          obtain rfl : f = "Multiply" := by simpa using hf
          rw [Expr.complexValue_product]
          exact collectFactors_denotes (he.application_inv (by simp)).2 hp h
        next =>
          split at h
          next hf =>
            obtain rfl : f = "Power" := by simpa using hf
            obtain ⟨b, n, rfl, hb, hne⟩ := he.power_inv
            rw [Expr.complexValue_power, ← complexPower_ofInt]
            exact hp.count ⟨n, rfl, hb, hne⟩ h
          next => exact hbase h

theorem collectFactors_denotes [CharZero K] : ∀ {es : List Expr} {p p' : Factors} {x : K},
    (∀ e ∈ es, Valued I e) → p.Denotes I x → collectFactors es p = .ok p' →
    p'.Denotes I (x * (es.map (Expr.complexValue I)).prod)
  | [], p, p', x, _, hp, h => by
      cases h
      simpa using hp
  | e :: rest, p, p', x, hes, hp, h => by
      rw [List.forall_mem_cons] at hes
      rw [collectFactors] at h
      obtain ⟨p₁, h₁, h⟩ := exists_of_bind_ok h
      rw [List.map_cons, List.prod_cons, ← mul_assoc]
      exact collectFactors_denotes hes.2 (collectFactor_denotes hes.1 hp h₁) h

end

variable [CharZero K]

/-- A power of a number that is folded has its value. -/
theorem yields_foldPower_value {b : Expr} {n : ℤ} (hb : Valued I b)
    (hne : n < 0 → b.complexValue I ≠ 0) :
    Yields Anyhow (foldPower b (.ofInt n)) k fun o _ =>
      ∀ v, o = some v → v.isExact = true ∧ v.complexValue I = b.complexValue I ^ n := by
  cases b with
  | number w =>
      refine (anyhow getPrecision).bind fun precision k' _ => ?_
      refine yields_number (fun _ _ => trivial) fun o ho => ?_
      obtain ⟨w', hw, ho⟩ := exists_of_bind_ok ho
      obtain ⟨v', hv, hexact, hvalue⟩ := Number.hasValue_pow precision hb.exact n hne
      rw [hv] at hw
      cases hw
      rw [hexact] at ho
      cases ho
      rintro v ⟨⟩
      exact ⟨hexact, hvalue⟩
  | _ => exact Yields.pure (by simp)

/-- **Collected powers become a coefficient and factors of the same value.** -/
theorem yields_makeFactors_value : ∀ {powers : Tally} {c : Number} {k : Kernel},
    (∀ q ∈ powers, ValuedPower I q.1 q.2) → c.isExact = true →
    Yields Anyhow (makeFactors powers c) k fun r _ => r.1.isExact = true ∧
      (∀ e ∈ r.2, Valued I e) ∧ r.1.complexValue I * (r.2.map (Expr.complexValue I)).prod =
        c.complexValue I * (powers.map (complexPower I)).prod
  | [], c, k, _, hc => Yields.pure ⟨hc, by simp, rfl⟩
  | (b, e) :: rest, c, k, h, hc => by
      rw [List.forall_mem_cons] at h
      obtain ⟨⟨n, rfl, hb, hne⟩, hrest⟩ := h
      rw [makeFactors_cons, List.map_cons, List.prod_cons, complexPower_ofInt]
      split
      next h0 =>
        obtain rfl : n = 0 := by simpa using h0
        simpa using yields_makeFactors_value hrest hc
      next =>
        refine (yields_foldPower_value hb hne).bind fun folded k₁ hfolded => ?_
        cases folded with
        | some v =>
            obtain ⟨hv, hvalue⟩ := hfolded v rfl
            refine (yields_number_value (Number.hasValue_mul (I := I) hc hv)).bind fun c' k₂ hc' => ?_
            refine (yields_makeFactors_value hrest hc'.1).mono fun r _ hr => ⟨hr.1, hr.2.1, ?_⟩
            rw [hr.2.2, hc'.2, hvalue, mul_assoc]
        | none =>
            refine Yields.bind (denotes_writePower hb hne) fun f k₂ hf => ?_
            refine (yields_makeFactors_value hrest hc).bind fun r k₃ hr => Yields.pure ?_
            refine ⟨hr.1, List.forall_mem_cons.2 ⟨hf.1, hr.2.1⟩, ?_⟩
            rw [List.map_cons, List.prod_cons, hf.2, mul_left_comm, hr.2.2, mul_left_comm]

theorem denotes_multiply {es : List Expr} (hes : ∀ e ∈ es, Valued I e) :
    Denotes I (mul.multiply es) k (es.map (Expr.complexValue I)).prod := by
  have hempty : ({} : Factors).Denotes I 1 := ⟨rfl, by simp, by simp⟩
  unfold mul.multiply
  refine Yields.bind (P := fun p _ => p.Denotes I (es.map (Expr.complexValue I)).prod)
    (yields_ofExcept (fun _ _ => trivial) fun p hp => ?_) fun p k₁ hp => ?_
  · simpa using collectFactors_denotes hes hempty hp
  refine (anyhow getTable).bind fun t k₂ _ => ?_
  have hperm := sortPowers_perm t p.powers
  have hpowers : ∀ q ∈ sortPowers t p.powers, ValuedPower I q.1 q.2 :=
    fun q hq => hp.powers q (hperm.mem_iff.1 hq)
  refine (yields_makeFactors_value hpowers hp.exact).bind fun r k₃ hr => ?_
  refine (denotes_assembleProduct hr.1 hr.2.1).of_eq ?_
  rw [hr.2.2, (hperm.map _).prod_eq, hp.value]

/-- **Products have the product of the values.** -/
theorem denotes_mul {ops : List Expr} (hops : ∀ e ∈ ops, Valued I e) :
    Denotes I (mul ops) k (ops.map (Expr.complexValue I)).prod := by
  have hes := Valued.flatten (.inr rfl) hops
  rw [← Valued.flatten_prod hops]
  unfold mul
  simp only
  generalize Expr.flatten (some "Multiply") ops = es at hes
  split
  next => exact (denotes_apply fun d => .product d true hes).of_eq (Expr.complexValue_product I _ _ _)
  next =>
    rcases es with _ | ⟨e, _ | ⟨e', rest⟩⟩
    · exact (denotes_makeNumber rfl).of_eq (Number.complexValue_one I)
    · simp only
      split
      next => exact denotes_pure (hes e (by simp)) (by simp)
      next => exact denotes_multiply hes
    · exact denotes_multiply hes

end Kernel

end SymbolicAlgebra
