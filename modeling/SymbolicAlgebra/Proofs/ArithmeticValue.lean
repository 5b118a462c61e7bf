import Mathlib.Algebra.BigOperators.Ring.List
import SymbolicAlgebra.Proofs.SumValue

/-!
# Proofs/ArithmeticValue — every operation has the right value

`Realm.Gives` says that an operation ends with an expression of a given value, in the realm, or with
a tolerated fault.  Sums tolerate one fault, that of a summand that collapses (`Realm.Safe`); all
other operations fail only where they form a sum.
-/

namespace SymbolicAlgebra.Kernel

variable {K : Type*} [Field K] {I : Interpretation K} {S : Shape} {R : Realm} {E : Fault → Prop}
  {k : Kernel}

/-- The operation ends with an expression of value `x`, in the realm, or with a fault in `E`. -/
def Realm.Gives (R : Realm) (I : Interpretation K) (S : Shape) (E : Fault → Prop) (a : Action Expr)
    (k : Kernel) (x : K) : Prop :=
  Yields E a k fun r k' => R.Holds k' ∧ R.Good r ∧ Defined I S r ∧ r.value I = x

/-- Either the fault of a collapsing summand is tolerated, or no summand collapses. -/
def Realm.Safe (R : Realm) (I : Interpretation K) (S : Shape) (E : Fault → Prop) : Prop :=
  E .missingOperand ∨ ∀ e, Defined I S e → ¬R.Collapses e

namespace Realm

theorem gives_pure {e : Expr} {x : K} (hk : R.Holds k) (hg : R.Good e) (he : Defined I S e)
    (hv : e.value I = x) : R.Gives I S E (pure e) k x := Yields.pure ⟨hk, hg, he, hv⟩

/-- Whatever is built from the result of an operation. -/
theorem Gives.bind {a : Action Expr} {f : Expr → Action Expr} {x y : K} (ha : R.Gives I S E a k x)
    (hf : ∀ r k, R.Holds k → R.Good r → Defined I S r → r.value I = x → R.Gives I S E (f r) k y) :
    R.Gives I S E (a >>= f) k y :=
  Yields.bind ha fun r k' h => hf r k' h.1 h.2.1 h.2.2.1 h.2.2.2

theorem Gives.of_eq {a : Action Expr} {x y : K} (h : R.Gives I S E a k x) (hxy : x = y) :
    R.Gives I S E a k y := hxy ▸ h

theorem gives_makeNumber {q : Rat} (hk : R.Holds k) : R.Gives I S E (makeNumber (.ofRat q)) k q := by
  refine (yields_makeNumber hk (Number.isProper_ofRat q)).mono fun r k' h => ?_
  obtain ⟨hk', rfl⟩ := h
  exact ⟨hk', R.good_number rfl, .number q, rfl⟩

theorem gives_one (hk : R.Holds k) : R.Gives I S E one k 1 :=
  (gives_makeNumber (q := 1) hk).of_eq Rat.cast_one

theorem gives_zero (hk : R.Holds k) : R.Gives I S E zero k 0 :=
  (gives_makeNumber (q := 0) hk).of_eq Rat.cast_zero

/-- An application that is built has the value that it has without a definition. -/
theorem gives_apply {f : String} {ops : List Expr} (hk : R.Holds k)
    (hf : f ∈ arithmeticOperators) (hops : ∀ x ∈ ops, R.Good x) (hd : Defined I S (.node f ops)) :
    R.Gives I S E (apply f ops) k ((Expr.node f ops).value I) := by
  refine (yields_apply hk hf hops).mono fun r k' h => ⟨h.1, h.2.1, .of_bare ?_, ?_⟩
  · rw [h.2.2, ← Expr.bare_application f ops none true]
    exact hd.bare
  · rw [← Expr.value_bare, h.2.2, ← Expr.bare_application f ops none true, Expr.value_bare]

theorem value_map_bare (ops : List Expr) :
    (ops.map Expr.bare).map (Expr.value I) = ops.map (Expr.value I) := by
  rw [List.map_map]
  exact List.map_congr_left fun e _ => Expr.value_bare I e

section Sums

variable [CharZero K]

/-- **Products have the product of the values.** -/
theorem gives_mul {ops : List Expr} (hk : R.Holds k) (hops : ∀ e ∈ ops, R.Good e)
    (hd : ∀ e ∈ ops, Defined I S e) :
    R.Gives I S E (mul ops) k (ops.map (Expr.value I)).prod := by
  have hbare : ∀ e ∈ ops.map Expr.bare, Defined I S e :=
    List.forall_mem_map.2 fun e he => (hd e he).bare
  refine (yields_mul hk hops).imp (fun f hf => ?_) fun r k' h => ?_
  · obtain ⟨r, ho, -⟩ := R.flatProduct_value hbare hf
    cases ho
  · obtain ⟨r', ho, hr, hv⟩ := R.flatProduct_value hbare h.2.2
    cases ho
    exact ⟨h.1, h.2.1, .of_bare hr, by rw [← Expr.value_bare, hv, value_map_bare]⟩

/-- **Sums have the sum of the values.** -/
theorem gives_add {ops : List Expr} (hE : R.Safe I S E) (hk : R.Holds k)
    (hops : ∀ e ∈ ops, R.Good e) (hd : ∀ e ∈ ops, Defined I S e) :
    R.Gives I S E (add ops) k (ops.map (Expr.value I)).sum := by
  have hbare : ∀ e ∈ ops.map Expr.bare, Defined I S e :=
    List.forall_mem_map.2 fun e he => (hd e he).bare
  refine (yields_add hk hops).imp (fun f hf => ?_) fun r k' h => ?_
  · rcases R.sum_value (Defined.flatten hbare) hf with ⟨ho, e, he, hc⟩ | ⟨r, ho, -⟩
    · cases ho
      exact hE.resolve_right fun hE => hE e (Defined.flatten hbare e he) hc
    · cases ho
  · rcases R.sum_value (Defined.flatten hbare) h.2.2 with ⟨ho, -⟩ | ⟨r', ho, hr, hv⟩
    · cases ho
    · cases ho
      refine ⟨h.1, h.2.1, .of_bare hr, ?_⟩
      rw [← Expr.value_bare, hv, Defined.flatten_sum hbare, value_map_bare]

/-! ## Opposites -/

/-- An expression times minus one. -/
theorem gives_negated {e : Expr} (hk : R.Holds k) (hg : R.Good e) (hd : Defined I S e) :
    R.Gives I S E (do mul [← negativeOne, e]) k (-e.value I) := by
  refine (gives_makeNumber (q := -1) hk).bind fun r k' hk' hr hrd hrv => ?_
  refine (gives_mul hk' (by simpa using ⟨hr, hg⟩) (by simpa using ⟨hrd, hd⟩)).of_eq ?_
  simp [hrv]

end Sums

mutual

/-- **Opposites have the opposite value.** -/
theorem gives_neg [CharZero K] (hE : R.Safe I S E) : ∀ {e : Expr} {k : Kernel}, R.Holds k → R.Good e →
    Defined I S e → R.Gives I S E (neg e) k (-e.value I)
  | .number v, k, hk, _, hd => by
      obtain ⟨q, rfl⟩ := Number.eq_ofRat hd.rational
      refine (gives_makeNumber (q := -q) hk).of_eq ?_
      rw [Rat.cast_neg, Expr.value_number, Number.value_ofRat]
  | .symbol n d c, k, hk, hg, hd => gives_negated hk hg hd
  | .error _ _ _, k, _, _, hd => by cases hd
  | .application f ops d c, k, hk, hg, hd => by
      have hops := hd.operand
      rw [neg]
      split
      next hf =>
        obtain rfl : f = "Negate" := by simpa using hf
        obtain ⟨a, rfl⟩ := hd.negation_inv
        rw [Expr.value_negation, neg_neg]
        exact gives_pure hk (R.good_operand hg a (by simp)) (hops a (by simp)) rfl
      next =>
        rw [if_neg (by simp [valid (R.good_operand hg)])]
        split
        next hf =>
          obtain rfl : f = "Add" := by simpa using hf
          refine (yields_negAll hE hk (R.good_operand hg) hops).bind fun rs k' h => ?_
          refine (gives_add hE h.1 h.2.1 h.2.2.1).of_eq ?_
          rw [h.2.2.2, Expr.value_sum]
        next => exact gives_negated hk hg hd

theorem yields_negAll [CharZero K] (hE : R.Safe I S E) : ∀ {es : List Expr} {k : Kernel}, R.Holds k →
    (∀ e ∈ es, R.Good e) → (∀ e ∈ es, Defined I S e) →
    Yields E (negAll es) k fun rs k' => R.Holds k' ∧ (∀ e ∈ rs, R.Good e) ∧
      (∀ e ∈ rs, Defined I S e) ∧ (rs.map (Expr.value I)).sum = -(es.map (Expr.value I)).sum
  | [], k, hk, _, _ => Yields.pure ⟨hk, by simp, by simp, by simp⟩
  | e :: rest, k, hk, hg, hd => by
      rw [List.forall_mem_cons] at hg hd
      refine Yields.bind (gives_neg hE hk hg.1 hd.1) fun r k₁ hr => ?_
      refine (yields_negAll hE hr.1 hg.2 hd.2).bind fun rs k₂ hrs => Yields.pure ?_
      refine ⟨hrs.1, List.forall_mem_cons.2 ⟨hr.2.1, hrs.2.1⟩,
        List.forall_mem_cons.2 ⟨hr.2.2.1, hrs.2.2.1⟩, ?_⟩
      rw [List.map_cons, List.sum_cons, hr.2.2.2, hrs.2.2.2, List.map_cons, List.sum_cons, neg_add]

end

/-- **Differences have the difference of the values.** -/
theorem gives_sub [CharZero K] {a b : Expr} (hE : R.Safe I S E) (hk : R.Holds k) (ha : R.Good a)
    (hda : Defined I S a) (hb : R.Good b) (hdb : Defined I S b) :
    R.Gives I S E (sub a b) k (a.value I - b.value I) := by
  refine (gives_neg hE hk hb hdb).bind fun r k' hk' hr hrd hrv => ?_
  refine (gives_add hE hk' (by simpa using ⟨ha, hr⟩) (by simpa using ⟨hda, hrd⟩)).of_eq ?_
  simp [hrv, sub_eq_add_neg]

/-! ## Quotients -/

/-- A quotient that is written as such. -/
theorem gives_quotient {a b : Expr} (hk : R.Holds k) (ha : R.Good a) (hda : Defined I S a)
    (hb : R.Good b) (hdb : Defined I S b) (hne : b.value I ≠ 0) :
    R.Gives I S E (apply "Divide" [a, b]) k (a.value I / b.value I) := by
  refine (gives_apply hk (by decide) (by simpa using ⟨ha, hb⟩)
    (.quotient none true hda hdb hne)).of_eq ?_
  rw [Expr.value_quotient]

/-- **Quotients have the quotient of the values**, however many quotients are unfolded. -/
theorem gives_divWithin [CharZero K] : ∀ (fuel : Nat) {a b : Expr} {k : Kernel}, R.Holds k → R.Good a →
    Defined I S a → R.Good b → Defined I S b → b.value I ≠ 0 →
    R.Gives I S E (divWithin fuel a b) k (a.value I / b.value I)
  | 0, a, b, k, hk, ha, hda, hb, hdb, hne => gives_quotient hk ha hda hb hdb hne
  | fuel + 1, a, b, k, hk, ha, hda, hb, hdb, hne => by
      obtain ⟨step, heq, hstep⟩ := exists_divides a b
      rw [heq]
      cases hstep with
      | invalid => exact gives_quotient hk ha hda hb hdb hne
      | plain => exact gives_quotient hk ha hda hb hdb hne
      | lacking h => simp [hda.lacksOperand, hdb.lacksOperand] at h
      | numbers x y =>
          obtain ⟨x, rfl⟩ := Number.eq_ofRat hda.rational
          obtain ⟨y, rfl⟩ := Number.eq_ofRat hdb.rational
          rw [Expr.value_number, Expr.value_number, Number.value_ofRat, Number.value_ofRat] at *
          rw [Number.div_ofRat x (Rat.cast_ne_zero.1 hne)]
          exact (gives_makeNumber (q := x / y) hk).of_eq (Rat.cast_div x y)
      | byOne _ h =>
          obtain ⟨y, rfl⟩ := Number.eq_ofRat hdb.rational
          obtain rfl : y = 1 := by simpa using h
          exact gives_pure hk ha hda (by simp)
      | byNumber _ y =>
          obtain ⟨y, rfl⟩ := Number.eq_ofRat hdb.rational
          rw [Expr.value_number, Number.value_ofRat] at hne ⊢
          rw [Number.inv_ofRat (Rat.cast_ne_zero.1 hne)]
          refine (gives_makeNumber (q := y⁻¹) hk).bind fun r k' hk' hr hrd hrv => ?_
          refine (gives_mul hk' (by simpa using ⟨ha, hr⟩) (by simpa using ⟨hda, hrd⟩)).of_eq ?_
          simp [hrv, div_eq_mul_inv]
      | ofZero _ h =>
          obtain ⟨x, rfl⟩ := Number.eq_ofRat hda.rational
          obtain rfl : x = 0 := by simpa using h
          exact (gives_zero hk).of_eq (by simp)
      | same h =>
          refine (gives_one hk).of_eq ?_
          rw [Expr.value_of_same I hda.exact h, div_self hne]
      | ofQuotient n d rest i c =>
          obtain ⟨n', d', hops, hd0⟩ := hda.quotient_inv
          obtain ⟨rfl, rfl, rfl⟩ : n = n' ∧ d = d' ∧ rest = [] := by simpa using hops
          have hd := hda.operand d (by simp)
          refine Gives.bind (gives_mul hk ?_ ?_) fun r k' hk' hr hrd hrv => ?_
          · simpa using ⟨R.good_operand ha d (by simp), hb⟩
          · simpa using ⟨hd, hdb⟩
          have hr0 : r.value I ≠ 0 := by
            rw [hrv]
            simpa using ⟨hd0, hne⟩
          refine (gives_divWithin fuel hk' (R.good_operand ha n (by simp)) (hda.operand n (by simp))
            hr hrd hr0).of_eq ?_
          rw [hrv, Expr.value_quotient]
          simp [div_div]
      | byQuotient _ n d rest i c =>
          obtain ⟨n', d', hops, hd0⟩ := hdb.quotient_inv
          obtain ⟨rfl, rfl, rfl⟩ : n = n' ∧ d = d' ∧ rest = [] := by simpa using hops
          rw [Expr.value_quotient] at hne
          refine Gives.bind (gives_mul hk ?_ ?_) fun r k' hk' hr hrd hrv => ?_
          · simpa using ⟨ha, R.good_operand hb d (by simp)⟩
          · simpa using ⟨hda, hdb.operand d (by simp)⟩
          refine (gives_divWithin fuel hk' hr hrd (R.good_operand hb n (by simp))
            (hdb.operand n (by simp)) (div_ne_zero_iff.1 hne).1).of_eq ?_
          rw [hrv, Expr.value_quotient]
          simp [div_div_eq_mul_div]

theorem gives_div [CharZero K] {a b : Expr} (hk : R.Holds k) (ha : R.Good a) (hda : Defined I S a)
    (hb : R.Good b) (hdb : Defined I S b) (hne : b.value I ≠ 0) :
    R.Gives I S E (div a b) k (a.value I / b.value I) :=
  gives_divWithin _ hk ha hda hb hdb hne

/-! ## Powers -/

/-- A power of a power. -/
theorem ne_zero_of_mul_neg {x : K} {m n : Int} (hm : m < 0 → x ≠ 0) (hn : n < 0 → x ^ m ≠ 0)
    (h : m * n < 0) : x ≠ 0 := by
  by_cases hm0 : m < 0
  · exact hm hm0
  · rintro rfl
    have hmpos : 0 < m := by
      rcases Int.lt_trichotomy m 0 with h' | rfl | h'
      · exact absurd h' hm0
      · simp at h
      · exact h'
    have hneg : n < 0 := by
      by_contra hn0
      exact absurd h (not_lt.2 (Int.mul_nonneg hmpos.le (not_lt.1 hn0)))
    exact hn hneg (zero_zpow m hmpos.ne')

/-- A power that is written as such. -/
theorem gives_power {b : Expr} {n : Int} (hk : R.Holds k) (hb : R.Good b) (hd : Defined I S b)
    (hne : n < 0 → b.value I ≠ 0) (hS : b.operator ≠ "Multiply") :
    R.Gives I S E (apply "Power" [b, .number (.ofInt n)]) k (b.value I ^ n) := by
  refine (gives_apply hk (by decide) ?_ (.power none true hd hne (S.power hS))).of_eq ?_
  · simpa using ⟨hb, R.good_number (Number.isProper_ofInt n)⟩
  · rw [Expr.value_power]

/-- A power of a number is computed. -/
theorem gives_exactPower [CharZero K] {q : Rat} {n : Int} (hk : R.Holds k) (hq : n < 0 → q ≠ 0) :
    R.Gives I S E (do
      match ← number (exactPower? (← getPrecision) (.ofRat q) (.ofInt n)) with
      | some x => makeNumber x
      | none => apply "Power" [.number (.ofRat q), .number (.ofInt n)]) k ((q : K) ^ n) := by
  refine Yields.bind (P := fun _ k' => R.Holds k') (yields_getPrecision hk) ?_
  intro precision k' hk'
  have hp : exactPower? precision (.ofRat q) (.ofInt n) = .ok (some (.ofRat (q ^ n))) := by
    rw [exactPower?, Number.pow_ofRat precision hq]
    rfl
  rw [hp]
  exact (gives_makeNumber (q := q ^ n) hk').of_eq (by simp)

/-- The sign of a power of a negation is settled by whether the exponent is even. -/
theorem gives_signed [CharZero K] {r : Expr} {x : K} {n : Int} (hE : R.Safe I S E) (hk : R.Holds k)
    (hr : R.Good r) (hd : Defined I S r) (hx : r.value I = x ^ n) :
    R.Gives I S E (if n % 2 = 0 then pure r else neg r) k ((-x) ^ n) := by
  split
  next heven =>
    have heven' : Even n := Int.even_iff.2 heven
    exact gives_pure hk hr hd (by rw [hx, heven'.neg_zpow])
  next hodd =>
    have hodd' : Odd n := Int.odd_iff.2 (by omega)
    exact (gives_neg hE hk hr hd).of_eq (by rw [hx, hodd'.neg_zpow])

mutual

/-- **Powers have the power of the value.** -/
theorem gives_pow [CharZero K] (hE : R.Safe I S E) : ∀ {b : Expr} {n : Int} {k : Kernel},
    R.Holds k → R.Good b → Defined I S b → (n < 0 → b.value I ≠ 0) →
    R.Gives I S E (pow b (.number (.ofInt n))) k (b.value I ^ n)
  | b, n, k, hk, hb, hd, hne => by
      have h := raises b (.number (.ofInt n))
      generalize pow b (.number (.ofInt n)) = a at h ⊢
      cases h with
      | invalid h => simp [Expr.isValid_of_isOver hd.rational, Expr.isValid] at h
      | lacking _ h => simp [hd.lacksOperand] at h
      | plain h => exact gives_power hk hb hd hne fun hf => by simpa [Expr.literal?] using h hf
      | byZero _ h =>
          obtain rfl : n = 0 := by simpa using h
          exact (gives_one hk).of_eq (zpow_zero _).symm
      | byOne _ h =>
          obtain rfl : n = 1 := by simpa using h
          exact gives_pure hk hb hd (zpow_one _).symm
      | ofOne _ h =>
          obtain ⟨q, rfl⟩ := Number.eq_ofRat hd.rational
          obtain rfl : q = 1 := by simpa using h
          exact (gives_one hk).of_eq (by simp)
      | numbers v =>
          obtain ⟨q, rfl⟩ := Number.eq_ofRat hd.rational
          refine (gives_exactPower hk ?_).of_eq (by simp)
          rintro hn rfl
          exact hne hn (by simp)
      | ofPower b x rest i c h =>
          obtain rfl := Option.some.inj ((Number.integer?_ofInt n).symm.trans h)
          obtain ⟨b', m, hops, hm, -⟩ := hd.power_inv
          obtain ⟨rfl, rfl, rfl⟩ : b = b' ∧ x = .ofInt m ∧ rest = [] := by simpa using hops
          rw [Expr.value_power] at hne ⊢
          have hmul : (Number.ofInt m).mul (.ofInt n) = .ok (.ofInt (m * n)) := Number.mul_ofInt m n
          refine Yields.bind (P := fun v k' => v = .ofInt (m * n) ∧ R.Holds k')
            (yields_number_ok hmul ⟨rfl, hk⟩) ?_
          rintro _ k' ⟨rfl, hk'⟩
          refine (yields_makeNumber hk' (Number.isProper_ofInt _)).bind fun r k' h => ?_
          obtain ⟨hk', rfl⟩ := h
          refine (gives_pow hE hk' (R.good_operand hb b (by simp)) (hd.operand b (by simp))
            (ne_zero_of_mul_neg hm hne)).of_eq ?_
          rw [zpow_mul]
      | ofNegation b rest i c h =>
          obtain rfl := Option.some.inj ((Number.integer?_ofInt n).symm.trans h)
          obtain ⟨b', hops⟩ := hd.negation_inv
          obtain ⟨rfl, rfl⟩ : b = b' ∧ rest = [] := by simpa using hops
          rw [Expr.value_negation] at hne ⊢
          have hne' : n < 0 → b.value I ≠ 0 := fun h => neg_ne_zero.1 (hne h)
          refine (gives_pow hE hk (R.good_operand hb b (by simp)) (hd.operand b (by simp)) hne').bind
            fun r k' hk' hr hrd hrv => ?_
          exact gives_signed hE hk' hr hrd hrv
      | ofProduct ops i c h =>
          rw [Expr.value_product] at hne ⊢
          have hne' : ∀ e ∈ ops, n < 0 → e.value I ≠ 0 := by
            intro e he hn h
            exact hne hn (List.prod_eq_zero (h ▸ List.mem_map_of_mem he))
          refine (yields_powAll hE hk (R.good_operand hb) hd.operand hne').bind fun rs k' h => ?_
          exact (gives_mul h.1 h.2.1 h.2.2.1).of_eq h.2.2.2
      | ofQuotient x y rest i c h =>
          obtain ⟨x', y', hops, hy⟩ := hd.quotient_inv
          obtain ⟨rfl, rfl, rfl⟩ : x = x' ∧ y = y' ∧ rest = [] := by simpa using hops
          rw [Expr.value_quotient] at hne ⊢
          refine (gives_pow hE hk (R.good_operand hb x (by simp)) (hd.operand x (by simp))
            fun h => (div_ne_zero_iff.1 (hne h)).1).bind fun r k₁ hk₁ hr hrd hrv => ?_
          refine (gives_pow hE hk₁ (R.good_operand hb y (by simp)) (hd.operand y (by simp))
            fun _ => hy).bind fun r' k₂ hk₂ hr' hrd' hrv' => ?_
          have hr0 : r'.value I ≠ 0 := hrv' ▸ zpow_ne_zero n hy
          exact (gives_div hk₂ hr hrd hr' hrd' hr0).of_eq (by rw [hrv, hrv', div_zpow])

theorem yields_powAll [CharZero K] (hE : R.Safe I S E) : ∀ {es : List Expr} {n : Int} {k : Kernel},
    R.Holds k → (∀ e ∈ es, R.Good e) → (∀ e ∈ es, Defined I S e) → (∀ e ∈ es, n < 0 → e.value I ≠ 0) →
    Yields E (powAll es (.number (.ofInt n))) k fun rs k' => R.Holds k' ∧ (∀ e ∈ rs, R.Good e) ∧
      (∀ e ∈ rs, Defined I S e) ∧ (rs.map (Expr.value I)).prod = (es.map (Expr.value I)).prod ^ n
  | [], n, k, hk, _, _, _ => by
      rw [powAll]
      exact Yields.pure ⟨hk, by simp, by simp, by simp⟩
  | e :: rest, n, k, hk, hg, hd, hne => by
      rw [List.forall_mem_cons] at hg hd hne
      rw [powAll]
      refine Yields.bind (gives_pow hE hk hg.1 hd.1 hne.1) fun r k₁ hr => ?_
      refine (yields_powAll hE hr.1 hg.2 hd.2 hne.2).bind fun rs k₂ hrs => Yields.pure ?_
      refine ⟨hrs.1, List.forall_mem_cons.2 ⟨hr.2.1, hrs.2.1⟩,
        List.forall_mem_cons.2 ⟨hr.2.2.1, hrs.2.2.1⟩, ?_⟩
      rw [List.map_cons, List.prod_cons, hr.2.2.2, hrs.2.2.2, List.map_cons, List.prod_cons,
        mul_zpow]

end

/-! ## Inverses -/

/-- **Inverses have the inverse of the value.** -/
theorem gives_inv [CharZero K] {e : Expr} (hE : R.Safe I S E) (hk : R.Holds k) (hg : R.Good e)
    (hd : Defined I S e) (hne : e.value I ≠ 0) : R.Gives I S E (inv e) k (e.value I)⁻¹ := by
  have h := inverts e
  generalize inv e = a at h ⊢
  cases h with
  | number v =>
      obtain ⟨q, rfl⟩ := Number.eq_ofRat hd.rational
      rw [Expr.value_number, Number.value_ofRat] at hne ⊢
      rw [Number.inv_ofRat (Rat.cast_ne_zero.1 hne)]
      exact (gives_makeNumber (q := q⁻¹) hk).of_eq (Rat.cast_inv q)
  | quotient n d rest i c =>
      obtain ⟨n', d', hops, -⟩ := hd.quotient_inv
      obtain ⟨rfl, rfl, rfl⟩ : n = n' ∧ d = d' ∧ rest = [] := by simpa using hops
      rw [Expr.value_quotient] at hne ⊢
      refine (gives_div hk (R.good_operand hg d (by simp)) (hd.operand d (by simp))
        (R.good_operand hg n (by simp)) (hd.operand n (by simp)) (div_ne_zero_iff.1 hne).1).of_eq ?_
      rw [inv_div]
  | power b v rest i c =>
      obtain ⟨b', m, hops, -, -⟩ := hd.power_inv
      obtain ⟨rfl, rfl, rfl⟩ : b = b' ∧ v = .ofInt m ∧ rest = [] := by simpa using hops
      rw [Expr.value_power] at hne ⊢
      refine Yields.bind (P := fun v k' => v = .ofInt (-m) ∧ R.Holds k')
        (yields_number_ok (Number.neg_ofInt m) ⟨rfl, hk⟩) ?_
      rintro _ k' ⟨rfl, hk'⟩
      refine (yields_makeNumber hk' (Number.isProper_ofInt _)).bind fun r k' h => ?_
      obtain ⟨hk', rfl⟩ := h
      refine (gives_pow hE hk' (R.good_operand hg b (by simp)) (hd.operand b (by simp)) ?_).of_eq
        (zpow_neg _ _)
      rintro hneg h0
      exact hne (by rw [h0, zero_zpow m (by omega)])
  | lacking h => simp [hd.lacksOperand] at h
  | plain =>
      refine (gives_one hk).bind fun r k' hk' hr hrd hrv => ?_
      exact (gives_div hk' hr hrd hg hd hne).of_eq (by rw [hrv, one_div])

end Realm

end SymbolicAlgebra.Kernel
