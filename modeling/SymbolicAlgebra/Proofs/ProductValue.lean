import SymbolicAlgebra.Proofs.Value

/-!
# Proofs/ProductValue — products have the right value

The value of a product is followed from its factors through pieces, collected powers and written
factors (`Realm.product_value`).  Exponents of one base are added, which is right also for a base
that is zero, because then no exponent is negative.
-/

namespace SymbolicAlgebra.Kernel

variable {K : Type*} [Field K] {I : Interpretation K} {S : Shape}

/-! ## Powers -/

/-- Exponents may be added unless zero is inverted. -/
theorem zpow_add_of_ne_zero {x : K} {m n : Int} (hm : m < 0 → x ≠ 0) (hn : n < 0 → x ≠ 0) :
    x ^ (m + n) = x ^ m * x ^ n := by
  refine zpow_add' ?_
  by_cases hx : x = 0
  · have hm' : ¬m < 0 := fun h => hm h hx
    have hn' : ¬n < 0 := fun h => hn h hx
    omega
  · exact .inl hx

/-- The value of a base with a whole exponent. -/
def powerValue (I : Interpretation K) (base : Expr) (exponent : Number) : K :=
  base.value I ^ exponent.integer?.getD 0

@[simp] theorem powerValue_ofInt (b : Expr) (n : Int) : powerValue I b (.ofInt n) = b.value I ^ n := by
  rw [powerValue, Number.integer?_ofInt, Option.getD_some]

/-- A base with an exponent that make up a power with a value. -/
def DefinedPower (I : Interpretation K) (S : Shape) (b : Expr) (e : Number) : Prop :=
  ∃ n, e = .ofInt n ∧ Defined I S b ∧ (n < 0 → b.value I ≠ 0) ∧ S.Allows "Power" [b, .number e]

theorem collectable_defined :
    Collectable (DefinedPower I S) (fun v => v.isRational = true) where
  first := by
    rintro e _ ⟨n, rfl, h⟩
    exact ⟨.ofInt n, Number.zero_add_of_isProper rfl, n, rfl, h⟩
  again := by
    rintro x e _ _ ⟨m, rfl, hx, hm, hS⟩ ⟨n, rfl, he, hn, -⟩ hsame
    refine ⟨.ofInt (m + n), Number.add_ofInt m n, m + n, rfl, hx, fun h => ?_, S.power_again hS⟩
    rw [← Expr.value_of_same I hx.exact hsame] at hn
    by_cases hm' : m < 0
    · exact hm hm'
    · exact hn (by omega)
  mul := by
    intro a b ha hb
    obtain ⟨p, rfl⟩ := Number.eq_ofRat ha
    obtain ⟨q, rfl⟩ := Number.eq_ofRat hb
    exact ⟨_, rfl, rfl⟩
  neg := by
    intro a ha
    obtain ⟨p, rfl⟩ := Number.eq_ofRat ha
    exact ⟨_, rfl, rfl⟩

theorem dissectible_defined :
    Dissectible (Defined I S) (DefinedPower I S) (fun v => v.isRational = true) False where
  number := fun h => h.rational
  operand := fun _ h => h.operand
  power := by
    intro b n rest d c h
    obtain ⟨b', m, hops, hne, hS⟩ := h.power_inv
    rw [hops] at h hS
    cases hops
    exact ⟨m, rfl, h.operand b (by simp), hne, hS⟩
  base := fun h hb => ⟨1, rfl, h, fun h => absurd h (by decide), S.power hb.notProduct⟩
  missing := by
    intro ops d c h hlt
    obtain ⟨b, m, rfl, -⟩ := h.power_inv
    simp at hlt

/-! ## Pieces -/

/-- The value of a piece. -/
def Piece.value (I : Interpretation K) : Piece → K
  | .number v => v.value K
  | .sign => -1
  | .power base exponent => powerValue I base exponent
  | .missing => 0

theorem piecesAll_value : ∀ {es : List Expr},
    (∀ e ∈ es, ((pieces e).map (Piece.value I)).prod = e.value I) →
    ((piecesAll es).map (Piece.value I)).prod = (es.map (Expr.value I)).prod
  | [], _ => rfl
  | e :: rest, h => by
      rw [List.forall_mem_cons] at h
      rw [piecesAll, List.map_append, List.prod_append, h.1, piecesAll_value h.2, List.map_cons,
        List.prod_cons]

/-- **An expression has the value of its pieces.** -/
theorem pieces_value {e : Expr} (h : Defined I S e) :
    ((pieces e).map (Piece.value I)).prod = e.value I := by
  have hbase : ∀ {e : Expr}, ([Piece.power e .one].map (Piece.value I)).prod = e.value I := by
    intro e
    change powerValue I e (.ofInt 1) * 1 = _
    rw [powerValue_ofInt, zpow_one, mul_one]
  induction h with
  | number q => exact mul_one _
  | symbol n d c => exact hbase
  | @plain f ops d c hf hS hops ih =>
      have hn : f ≠ "Negate" := fun h => hf (by simp [h])
      have hp : f ≠ "Power" := fun h => hf (by simp [h])
      rw [pieces, if_neg (by simpa using hn)]
      split
      next hm =>
        obtain rfl : f = "Multiply" := by simpa using hm
        rw [Expr.value_product, piecesAll_value ih]
      next => rw [if_neg (by simpa using hp), hbase]
  | @negation a d c ha ih =>
      rw [Expr.value_negation, ← ih]
      change ((Piece.sign :: (pieces a ++ [])).map (Piece.value I)).prod = _
      rw [List.append_nil, List.map_cons, List.prod_cons, Piece.value, neg_one_mul]
  | quotient d c _ _ _ _ _ => exact hbase
  | @power b n d c _ _ _ _ =>
      change powerValue I b (.ofInt n) * 1 = _
      rw [powerValue_ofInt, Expr.value_power, mul_one]

/-! ## Collected powers -/

/-- The value of collected powers. -/
def tallyValue (I : Interpretation K) (l : Tally) : K := (l.map fun q => powerValue I q.1 q.2).prod

/-- The value of a product taken apart. -/
def Factors.value (I : Interpretation K) (p : Factors) : K :=
  p.coefficient.value K * tallyValue I p.powers

@[simp] theorem tallyValue_nil : tallyValue I [] = 1 := rfl

@[simp] theorem tallyValue_cons (q : Expr × Number) (l : Tally) :
    tallyValue I (q :: l) = powerValue I q.1 q.2 * tallyValue I l := rfl

/-- Adding to an exponent multiplies by a power. -/
theorem tallied_defined : Tallied (DefinedPower I S) fun q => powerValue I q.1 q.2 where
  first := by
    rintro e _ s ⟨n, rfl, h⟩ hs
    rw [Number.zero_add_of_isProper rfl] at hs
    cases hs
    exact ⟨⟨n, rfl, h⟩, rfl⟩
  again := by
    rintro x e _ _ s hx he hsame hs
    obtain ⟨s', hs', hpower⟩ := collectable_defined.again hx he hsame
    obtain rfl : s' = s := Except.ok.inj (hs'.symm.trans hs)
    obtain ⟨m, rfl, hdx, hm, -⟩ := hx
    obtain ⟨n, rfl, -, hn, -⟩ := he
    rw [Number.add_ofInt] at hs
    cases hs
    have hv := Expr.value_of_same I hdx.exact hsame
    rw [← hv] at hn
    exact ⟨hpower, by rw [powerValue_ofInt, powerValue_ofInt, powerValue_ofInt, ← hv,
      zpow_add_of_ne_zero hm hn]⟩

/-! ## Written factors -/

/-- Powers of numbers are folded. -/
theorem foldedPower_defined (precision : Nat) {q : Rat} {n : Int}
    (h : n < 0 → (Expr.number (.ofRat q)).value I ≠ 0) :
    foldedPower precision (.number (.ofRat q)) (.ofInt n) = .ok (some (.ofRat (q ^ n))) := by
  have hq : n < 0 → q ≠ 0 := by
    rintro hn rfl
    exact h hn Rat.cast_zero
  rw [foldedPower, exactPower?, Number.pow_ofRat precision hq]
  rfl

theorem writtenPower_defined {b : Expr} {n : Int} (h : DefinedPower I S b (.ofInt n)) :
    Defined I S (writtenPower b (.ofInt n)) ∧ (writtenPower b (.ofInt n)).value I = b.value I ^ n := by
  obtain ⟨m, hm, hb, hne, hS⟩ := h
  obtain rfl : n = m := by simpa using congrArg Number.integer? hm
  rw [writtenPower, Number.isOne_ofInt]
  split
  next h1 =>
    obtain rfl : n = 1 := by simpa using h1
    exact ⟨hb, (zpow_one _).symm⟩
  next => exact ⟨.power none true hb hne hS, Expr.value_power I b n none true⟩

/-- What a power contributes to the coefficient. -/
def literalPower (q : Expr × Number) : Rat :=
  match q.1 with
  | .number (.real (.exact r)) => r ^ q.2.integer?.getD 0
  | _ => 1

@[simp] theorem literalPower_ofRat (q : Rat) (n : Int) :
    literalPower (.number (.ofRat q), .ofInt n) = q ^ n := by
  change q ^ (Number.ofInt n).integer?.getD 0 = _
  rw [Number.integer?_ofInt, Option.getD_some]

theorem literalPower_of_isNumber_eq_false {b : Expr} (e : Number) (hb : b.isNumber = false) :
    literalPower (b, e) = 1 := by
  cases b with
  | number v => cases hb
  | _ => rfl

@[simp] theorem literalPower_zero (b : Expr) : literalPower (b, .ofInt 0) = 1 := by
  unfold literalPower
  split <;> simp

/-- What a power contributes to the factors. -/
def factor? (q : Expr × Number) : Option Expr :=
  if q.2.isZero || q.1.isNumber then none else some (writtenPower q.1 q.2)

@[simp] theorem factor?_zero (b : Expr) : factor? (b, .ofInt 0) = none := by simp [factor?]

@[simp] theorem factor?_number (v e : Number) : factor? (.number v, e) = none := by
  simp [factor?, Expr.isNumber]

theorem factor?_of_isNumber_eq_false {b : Expr} {n : Int} (hb : b.isNumber = false) (hn : n ≠ 0) :
    factor? (b, .ofInt n) = some (writtenPower b (.ofInt n)) := by
  simp [factor?, hb, hn]

/-- **Arranged powers are written one by one**: powers of numbers go into the coefficient. -/
theorem factorsOf_eq (precision : Nat) : ∀ {powers : Tally} {c : Rat},
    (∀ q ∈ powers, DefinedPower I S q.1 q.2) →
    factorsOf precision powers (.ofRat c) =
      .ok (.ofRat (c * (powers.map literalPower).prod), powers.filterMap factor?)
  | [], c, _ => by simp [factorsOf]
  | (b, e) :: rest, c, h => by
      rw [List.forall_mem_cons] at h
      obtain ⟨⟨n, rfl, hb, hne, -⟩, hrest⟩ := h
      rw [factorsOf, List.map_cons, List.prod_cons]
      by_cases h0 : n = 0
      · subst h0
        simp [factorsOf_eq precision hrest]
      · rw [if_neg (by simpa using h0)]
        rcases hb.number_cases with ⟨q, hq⟩ | hb
        · simp only at hq
          subst hq
          have ih := factorsOf_eq precision (c := c * q ^ n) hrest
          rw [foldedPower_defined precision hne]
          simpa [bind, Except.bind, mul_assoc] using ih
        · have hfold : foldedPower precision b (.ofInt n) = .ok none := by
            cases b with
            | number v => cases hb
            | _ => rfl
          rw [hfold, literalPower_of_isNumber_eq_false _ hb, one_mul,
            List.filterMap_cons_some (factor?_of_isNumber_eq_false hb h0)]
          simp [bind, Except.bind, factorsOf_eq precision hrest, pure, Except.pure]

theorem bareProduct_value {fs : List Expr} (hne : fs ≠ []) (hfs : ∀ x ∈ fs, Defined I S x) :
    Defined I S (bareProduct fs) ∧ (bareProduct fs).value I = (fs.map (Expr.value I)).prod := by
  rcases fs with _ | ⟨f, _ | ⟨g, rest⟩⟩
  · exact absurd rfl hne
  · exact ⟨hfs f (by simp), (mul_one _).symm⟩
  · exact ⟨.plain none true (by decide) (S.product (by simp)) hfs, Expr.value_product I _ none true⟩

/-- **A coefficient and factors make up a product of their value.** -/
theorem productOf_value {c : Rat} {fs : List Expr} (hfs : ∀ x ∈ fs, Defined I S x) :
    Defined I S (productOf (.ofRat c) fs) ∧
      (productOf (.ofRat c) fs).value I = c * (fs.map (Expr.value I)).prod := by
  rw [productOf, Number.isZero_ofRat, Number.isOne_ofRat, Number.isNegativeOne_ofRat]
  split
  next h0 =>
    refine ⟨.number c, ?_⟩
    rcases Bool.or_eq_true_iff.1 h0 with h0 | h0
    · obtain rfl : c = 0 := by simpa using h0
      simp
    · obtain rfl : fs = [] := by simpa using h0
      simp
  next h0 =>
    have hne : fs ≠ [] := by
      rintro rfl
      simp at h0
    obtain ⟨hd, hv⟩ := bareProduct_value hne hfs
    split
    next h1 =>
      obtain rfl : c = 1 := by simpa using h1
      exact ⟨hd, by rw [hv, Rat.cast_one, one_mul]⟩
    next =>
      split
      next h1 =>
        obtain rfl : c = -1 := by simpa using h1
        exact ⟨.negation none true hd, by rw [Expr.value_negation, hv]; simp⟩
      next =>
        refine ⟨.plain none true (by decide) (S.product (by simp)) ?_, ?_⟩
        · exact List.forall_mem_cons.2 ⟨.number c, hfs⟩
        · rw [Expr.value_product, List.map_cons, List.prod_cons]
          rfl

/-- What a product of expressions with values is written as. -/
theorem Realm.product_eq {R : Realm} {es : List Expr} {o : Except Fault Expr}
    (hes : ∀ e ∈ es, Defined I S e) (h : R.Product es o) :
    ∃ (p : Factors) (c : Rat) (powers : Tally),
      multiplyAll (piecesAll es) {} = .ok p ∧ p.coefficient = .ofRat c ∧
      powers.Perm p.powers ∧ (∀ q ∈ powers, DefinedPower I S q.1 q.2) ∧
      o = .ok (productOf (.ofRat (c * (powers.map literalPower).prod))
        (powers.filterMap factor?)) := by
  have hempty : ({} : Factors).Meets (DefinedPower I S) (fun v => v.isRational = true) :=
    ⟨rfl, by simp⟩
  rcases collectable_defined.multiplyAll (dissectible_defined.piecesAll hes) hempty with
    ⟨hF, -⟩ | ⟨p, hp, hmeets⟩
  · exact hF.elim
  · obtain ⟨c, hc⟩ := Number.eq_ofRat hmeets.coefficient
    rcases h with ⟨f, hf, -⟩ | ⟨p', powers, hp', harranged, rfl⟩
    · rw [hp] at hf
      cases hf
    · rw [hp] at hp'
      cases hp'
      have hperm := R.arranged_perm harranged
      have hpow : ∀ q ∈ powers, DefinedPower I S q.1 q.2 :=
        fun q hq => hmeets.powers q (hperm.mem_iff.1 hq)
      exact ⟨p, c, powers, hp, hc, hperm, hpow, by rw [written, hc, factorsOf_eq _ hpow]; rfl⟩

/-! ## The value of a product -/

variable [CharZero K]

/-- A piece multiplies the value of a product by its own. -/
theorem multiply_value {x : Piece} {p p' : Factors}
    (hx : x.Meets (DefinedPower I S) (fun v => v.isRational = true) False)
    (hp : p.Meets (DefinedPower I S) (fun v => v.isRational = true)) (h : x.multiply p = .ok p') :
    p'.value I = p.value I * x.value I := by
  obtain ⟨q, hq⟩ := Number.eq_ofRat hp.coefficient
  cases x with
  | number v =>
      obtain ⟨r, rfl⟩ := Number.eq_ofRat hx
      rw [Piece.multiply, hq, Number.mul_ofRat] at h
      cases h
      simp only [Factors.value, Piece.value, hq, Number.value_ofRat, Rat.cast_mul]
      ring
  | sign =>
      rw [Piece.multiply, hq, Number.neg_ofRat] at h
      cases h
      simp only [Factors.value, Piece.value, hq, Number.value_ofRat, Rat.cast_neg]
      ring
  | power base exponent =>
      rw [Piece.multiply, Factors.count] at h
      cases ht : tally base exponent p.powers with
      | error f =>
          rw [ht] at h
          cases h
      | ok l =>
          rw [ht] at h
          cases h
          rw [Factors.value, Factors.value, Piece.value, mul_assoc]
          exact congrArg _ (tallied_defined.total hx hp.powers ht).2
  | missing => cases h

/-- **Multiplied pieces have the product of their values.** -/
theorem multiplyAll_value : ∀ {ps : List Piece} {p p' : Factors},
    (∀ x ∈ ps, x.Meets (DefinedPower I S) (fun v => v.isRational = true) False) →
    p.Meets (DefinedPower I S) (fun v => v.isRational = true) → multiplyAll ps p = .ok p' →
    p'.value I = p.value I * (ps.map (Piece.value I)).prod
  | [], p, p', _, _, h => by
      cases h
      simp
  | x :: ps, p, p', hps, hp, h => by
      rw [List.forall_mem_cons] at hps
      rw [multiplyAll_cons] at h
      rcases collectable_defined.multiply hps.1 hp with ⟨hF, -⟩ | ⟨p₁, hx, hp₁⟩
      · exact hF.elim
      · rw [hx] at h
        rw [multiplyAll_value hps.2 hp₁ h, multiply_value hps.1 hp hx, List.map_cons,
          List.prod_cons, mul_assoc]

/-- **Arranged powers are written as factors of the same value.** -/
theorem written_value : ∀ {powers : Tally}, (∀ q ∈ powers, DefinedPower I S q.1 q.2) →
    (∀ x ∈ powers.filterMap factor?, Defined I S x) ∧
      ((powers.map literalPower).prod : K) * ((powers.filterMap factor?).map (Expr.value I)).prod =
        tallyValue I powers
  | [], _ => by simp
  | (b, e) :: rest, h => by
      rw [List.forall_mem_cons] at h
      obtain ⟨⟨n, rfl, hb, hne, hS⟩, hrest⟩ := h
      obtain ⟨hd, hv⟩ := written_value hrest
      obtain ⟨hw, hwv⟩ := writtenPower_defined ⟨n, rfl, hb, hne, hS⟩
      rw [List.map_cons, List.prod_cons, tallyValue_cons, powerValue_ofInt, ← hv]
      by_cases h0 : n = 0
      · subst h0
        rw [List.filterMap_cons_none (factor?_zero b)]
        exact ⟨hd, by simp⟩
      · rcases hb.number_cases with ⟨q, hq⟩ | hb
        · simp only at hq
          subst hq
          rw [List.filterMap_cons_none (factor?_number _ _)]
          exact ⟨hd, by simp [mul_assoc]⟩
        · rw [List.filterMap_cons_some (factor?_of_isNumber_eq_false hb h0), List.map_cons,
            List.prod_cons, hwv, literalPower_of_isNumber_eq_false _ hb, one_mul]
          exact ⟨List.forall_mem_cons.2 ⟨hw, hd⟩, mul_left_comm _ _ _⟩

/-- **A product of expressions with values is one, and has the product of their values.** -/
theorem Realm.product_value {R : Realm} {es : List Expr} {o : Except Fault Expr}
    (hes : ∀ e ∈ es, Defined I S e) (h : R.Product es o) :
    ∃ r, o = .ok r ∧ Defined I S r ∧ r.value I = (es.map (Expr.value I)).prod := by
  obtain ⟨p, c, powers, hp, hc, hperm, hpow, rfl⟩ := R.product_eq hes h
  have hempty : ({} : Factors).Meets (DefinedPower I S) (fun v => v.isRational = true) :=
    ⟨rfl, by simp⟩
  have hvalue := multiplyAll_value (dissectible_defined.piecesAll hes) hempty hp
  obtain ⟨hfs, hv⟩ := written_value hpow
  obtain ⟨hd, hdv⟩ := productOf_value (c := c * (powers.map literalPower).prod) hfs
  have hpowers : tallyValue I powers = tallyValue I p.powers := (hperm.map _).prod_eq
  refine ⟨_, rfl, hd, ?_⟩
  rw [hdv, Rat.cast_mul, mul_assoc, hv, hpowers,
    ← piecesAll_value fun e he => pieces_value (hes e he)]
  simpa [Factors.value, hc] using hvalue

end SymbolicAlgebra.Kernel
