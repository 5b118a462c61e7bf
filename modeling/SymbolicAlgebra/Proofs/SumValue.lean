import SymbolicAlgebra.Proofs.ProductValue

/-!
# Proofs/SumValue — sums have the right value, or a summand collapses

A summand *collapses* if it multiplies out to the empty product, which has no coefficient to split
off.  `Realm.sum_value` says that a sum has the sum of the values of its summands unless one of them
collapses; then there is no sum (`Realm.sum_of_collapses`).
-/

namespace SymbolicAlgebra

variable {K : Type*} [Field K] {I : Interpretation K} {S : Shape}

/-- Whether an expression is a product of nothing. -/
def Expr.isEmptyProduct (e : Expr) : Bool := e.isApplicationOf "Multiply" && e.operands.isEmpty

@[simp] theorem Expr.isEmptyProduct_bare (e : Expr) : e.bare.isEmptyProduct = e.isEmptyProduct := by
  simp [isEmptyProduct]

theorem Expr.eq_of_isEmptyProduct {e : Expr} (h : e.isEmptyProduct = true) :
    ∃ d c, e = .application "Multiply" [] d c := by
  rw [isEmptyProduct, Bool.and_eq_true] at h
  cases e with
  | application f ops d c =>
      obtain rfl : f = "Multiply" := by simpa [isApplicationOf] using h.1
      obtain rfl : ops = [] := by simpa [operands] using h.2
      exact ⟨d, c, rfl⟩
  | _ => cases h.1

/-! ## Flattened operands -/

theorem Defined.flatten {a : Option String} {es : List Expr} (h : ∀ e ∈ es, Defined I S e) :
    ∀ e ∈ Expr.flatten a es, Defined I S e :=
  Expr.forall_flatten (fun _ _ _ _ _ h => h.operand) h

/-- Flattening keeps the product of the values. -/
theorem Defined.flatten_prod {es : List Expr} (h : ∀ e ∈ es, Defined I S e) :
    ((Expr.flatten (some "Multiply") es).map (Expr.value I)).prod =
      (es.map (Expr.value I)).prod := by
  refine Expr.flatten_invariant (F := fun es => (es.map (Expr.value I)).prod) (g := (· * ·))
    (by simp) (fun f ops d c _ h => h.operand) (fun f ops d c hf h => ?_) h
  obtain rfl := (Expr.isSpliced_some.1 hf).resolve_left h.ne_sequence
  simp

/-- Flattening keeps the sum of the values. -/
theorem Defined.flatten_sum {es : List Expr} (h : ∀ e ∈ es, Defined I S e) :
    ((Expr.flatten (some "Add") es).map (Expr.value I)).sum = (es.map (Expr.value I)).sum := by
  refine Expr.flatten_invariant (F := fun es => (es.map (Expr.value I)).sum) (g := (· + ·))
    (by simp) (fun f ops d c _ h => h.operand) (fun f ops d c hf h => ?_) h
  obtain rfl := (Expr.isSpliced_some.1 hf).resolve_left h.ne_sequence
  simp

namespace Kernel

/-! ## Splitting -/

/-- What may stand behind a coefficient: an expression with a value, or nothing at all. -/
def DefinedMonomial (I : Interpretation K) (S : Shape) (m : Expr) : Prop :=
  Defined I S m ∨ m = .node "Multiply" []

theorem DefinedMonomial.exact {m : Expr} (h : DefinedMonomial I S m) : m.isExact = true := by
  rcases h with h | rfl
  · exact h.exact
  · rfl

/-- The value of what stands behind a coefficient. -/
def monomialValue (I : Interpretation K) (m : Option Expr) : K := m.elim 1 (Expr.value I)

/-- An expression split into a coefficient and what it multiplies. -/
def DefinedSplit (I : Interpretation K) (S : Shape) (o : Except Fault (Number × Option Expr))
    (x : K) : Prop :=
  ∃ v m, o = .ok (.ofRat v, m) ∧ (∀ y, m = some y → DefinedMonomial I S y) ∧
    (v : K) * monomialValue I m = x

theorem definedSplit_one {e : Expr} (h : Defined I S e) :
    DefinedSplit I S (.ok (.one, some e)) (e.value I) := by
  refine ⟨1, some e, rfl, ?_, by simp [monomialValue]⟩
  rintro _ ⟨⟩
  exact .inl h

/-- What stands behind the first factor of a product. -/
theorem definedMonomial_rest {rest : List Expr} (h : ∀ x ∈ rest, Defined I S x) :
    DefinedMonomial I S (.node "Multiply" rest) := by
  rcases rest with _ | ⟨x, rest⟩
  · exact .inr rfl
  · exact .inl (.plain none true (by decide) (S.product (by simp)) h)

theorem splitOf_product_value {ops : List Expr} {d : Option Nat} {c : Bool}
    (h : Defined I S (.application "Multiply" ops d c)) :
    (splitOf (.application "Multiply" ops d c) = .error .missingOperand ∧
        (Expr.application "Multiply" ops d c).isEmptyProduct = true) ∨
      ((Expr.application "Multiply" ops d c).isEmptyProduct = false ∧
        DefinedSplit I S (splitOf (.application "Multiply" ops d c))
          ((Expr.application "Multiply" ops d c).value I)) := by
  have hops := h.operand
  rcases ops with _ | ⟨x, rest⟩
  · exact .inl ⟨rfl, rfl⟩
  · refine .inr ⟨rfl, ?_⟩
    rw [List.forall_mem_cons] at hops
    cases x with
    | number v =>
        obtain ⟨q, rfl⟩ := Number.eq_ofRat hops.1.rational
        rcases rest with _ | ⟨m, _ | ⟨m', rest⟩⟩
        · refine ⟨q, some (.node "Multiply" []), rfl, ?_, by simp [monomialValue]⟩
          rintro _ ⟨⟩
          exact definedMonomial_rest hops.2
        · refine ⟨q, some m, rfl, ?_, by simp [monomialValue]⟩
          rintro _ ⟨⟩
          exact .inl (hops.2 m (by simp))
        · refine ⟨q, some (.node "Multiply" (m :: m' :: rest)), rfl, ?_, by simp [monomialValue]⟩
          rintro _ ⟨⟩
          exact definedMonomial_rest hops.2
    | _ => exact definedSplit_one h

/-- **An expression is its coefficient times what it multiplies**; the empty product has none. -/
theorem splitOf_value {r : Expr} (h : Defined I S r) :
    (splitOf r = .error .missingOperand ∧ r.isEmptyProduct = true) ∨
      (r.isEmptyProduct = false ∧ DefinedSplit I S (splitOf r) (r.value I)) := by
  cases r with
  | number v =>
      obtain ⟨q, rfl⟩ := Number.eq_ofRat h.rational
      exact .inr ⟨rfl, q, none, rfl, by simp, by simp [monomialValue]⟩
  | symbol n d c => exact .inr ⟨rfl, definedSplit_one h⟩
  | error a b x => cases h
  | application f ops d c =>
      have hops := h.operand
      by_cases hn : f = "Negate"
      · subst hn
        obtain ⟨a, rfl⟩ := h.negation_inv
        refine .inr ⟨rfl, -1, some a, rfl, ?_, by simp [monomialValue]⟩
        rintro _ ⟨⟩
        exact .inl (hops a (by simp))
      · by_cases hm : f = "Multiply"
        · subst hm
          exact splitOf_product_value h
        · have hs : splitOf (.application f ops d c) = .ok (.one, some (.application f ops d c)) := by
            simp [splitOf, hn, hm]
          rw [hs]
          exact .inr ⟨by simp [Expr.isEmptyProduct, Expr.isApplicationOf, hm], definedSplit_one h⟩

/-! ## Terms -/

/-- The bases of a monomial that has a value can be read. -/
theorem monomialFactors_defined {m : Expr} {f : Fault} (h : DefinedMonomial I S m) :
    monomialFactors m ≠ .error f := by
  intro hf
  obtain ⟨x, hx, hxf⟩ := exists_of_mapM_error hf
  have hd : Defined I S x := by
    rcases h with h | rfl
    · split at hx
      next =>
        cases m with
        | application g ops d c => exact h.operand x hx
        | _ => cases hx
      next => rwa [List.mem_singleton.1 hx]
    · cases hx
  split at hxf
  next hp =>
    cases x with
    | application g ops d c =>
        obtain rfl : g = "Power" := by simpa [Expr.operator] using hp
        obtain ⟨b, n, rfl, -⟩ := hd.power_inv
        cases hxf
    | _ => cases hp
  next => cases hxf

/-- A monomial with a rational coefficient. -/
def DefinedTerm (I : Interpretation K) (S : Shape) (m : Expr) (c : Number) : Prop :=
  DefinedMonomial I S m ∧ c.isRational = true

/-- Terms that have a value. -/
structure DefinedTerms (I : Interpretation K) (S : Shape) (s : Terms) : Prop where
  constant : s.constant.isRational = true
  monomials : ∀ q ∈ s.monomials, DefinedTerm I S q.1 q.2

/-- The value of a monomial with its coefficient. -/
def termValue (I : Interpretation K) (q : Expr × Number) : K := q.2.value K * q.1.value I

/-- The value of a sum taken apart. -/
def Terms.value (I : Interpretation K) (s : Terms) : K :=
  s.constant.value K + (s.monomials.map (termValue I)).sum

/-- Terms with coefficient zero do not count. -/
theorem filter_terms_value : ∀ {l : Tally}, (∀ q ∈ l, DefinedTerm I S q.1 q.2) →
    ((l.filter fun q => !q.2.isZero).map (termValue I)).sum = (l.map (termValue I)).sum
  | [], _ => rfl
  | (m, c) :: rest, h => by
      rw [List.forall_mem_cons] at h
      obtain ⟨p, hp⟩ := Number.eq_ofRat h.1.2
      simp only at hp
      subst hp
      by_cases h0 : p = 0
      · rw [List.filter_cons_of_neg (by simp [h0]), filter_terms_value h.2, List.map_cons,
          List.sum_cons, termValue, h0]
        simp
      · rw [List.filter_cons_of_pos (by simp [h0]), List.map_cons, List.sum_cons,
          filter_terms_value h.2, List.map_cons, List.sum_cons]

theorem bareSum_value {es : List Expr} (hne : es ≠ []) (hes : ∀ e ∈ es, Defined I S e) :
    Defined I S (bareSum es) ∧ (bareSum es).value I = (es.map (Expr.value I)).sum := by
  rcases es with _ | ⟨e, _ | ⟨e', rest⟩⟩
  · exact absurd rfl hne
  · exact ⟨hes e (by simp), (add_zero _).symm⟩
  · exact ⟨.plain none true (by decide) (S.sum (by simp)) hes, Expr.value_sum I _ none true⟩

theorem sumOf_value {c : Rat} {es : List Expr} (hes : ∀ e ∈ es, Defined I S e) :
    Defined I S (sumOf (.ofRat c) es) ∧
      (sumOf (.ofRat c) es).value I = c + (es.map (Expr.value I)).sum := by
  unfold sumOf
  split
  next =>
    have hall : ∀ e ∈ es ++ [.number (.ofRat c)], Defined I S e :=
      List.forall_mem_append.2 ⟨hes, by simpa using .number c⟩
    obtain ⟨hd, hv⟩ := bareSum_value (by simp) hall
    refine ⟨hd, ?_⟩
    rw [hv, List.map_append, List.sum_append, add_comm]
    simp
  next h0 =>
    simp only [Number.isZero_ofRat, Bool.or_eq_true, Bool.not_eq_true', decide_eq_false_iff_not,
      List.isEmpty_iff, not_or, not_not] at h0
    obtain ⟨hd, hv⟩ := bareSum_value h0.2 hes
    exact ⟨hd, by rw [hv, h0.1, Rat.cast_zero, zero_add]⟩

/-! ## Collapse -/

theorem productOf_isEmptyProduct {c : Number} {fs : List Expr}
    (h : (productOf c fs).isEmptyProduct = true) :
    ∃ f, fs = [f] ∧ f.isEmptyProduct = true := by
  unfold productOf at h
  split_ifs at h
  · cases h
  · rcases fs with _ | ⟨f, _ | ⟨g, rest⟩⟩
    · simp_all
    · exact ⟨f, rfl, h⟩
    · cases h
  · cases h
  · cases h

/-- **Whether a product collapses does not depend on how its powers are arranged.** -/
theorem Realm.isEmptyProduct_unique {R R' : Realm} {es : List Expr} {r : Expr}
    {o : Except Fault Expr} (hes : ∀ e ∈ es, Defined I S e) (h : R.Product es (.ok r))
    (hr : r.isEmptyProduct = true) (h' : R'.Product es o) :
    ∃ r', o = .ok r' ∧ r'.isEmptyProduct = true := by
  obtain ⟨p, c, powers, hp, hc, hperm, -, ho⟩ := R.product_eq hes h
  obtain ⟨p', c', powers', hp', hc', hperm', -, rfl⟩ := R'.product_eq hes h'
  rw [hp] at hp'
  cases hp'
  obtain rfl : c = c' := Number.ofRat_injective (hc.symm.trans hc')
  cases ho
  obtain ⟨f, hf, -⟩ := productOf_isEmptyProduct hr
  have hpp := hperm'.trans hperm.symm
  have hfs : powers'.filterMap factor? = [f] := by
    have := hpp.filterMap factor?
    rw [hf] at this
    exact List.perm_singleton.1 this
  refine ⟨_, rfl, ?_⟩
  rw [(hpp.map literalPower).prod_eq, hfs, ← hf]
  exact hr

/-- A summand collapses only if a power of the empty product occurs in it. -/
theorem Realm.exists_of_collapses {R : Realm} {es : List Expr} {r : Expr}
    (hes : ∀ e ∈ es, Defined I S e) (h : R.Product es (.ok r)) (hr : r.isEmptyProduct = true) :
    ∃ b n, DefinedPower I S b n ∧ b.isEmptyProduct = true := by
  obtain ⟨p, c, powers, -, -, -, hpow, ho⟩ := R.product_eq hes h
  cases ho
  obtain ⟨f, hf, hfe⟩ := productOf_isEmptyProduct hr
  obtain ⟨⟨b, n⟩, hq, hqf⟩ := List.mem_filterMap.1 (hf ▸ List.mem_singleton.2 rfl : f ∈ powers.filterMap factor?)
  refine ⟨b, n, hpow _ hq, ?_⟩
  unfold factor? at hqf
  split at hqf
  next => cases hqf
  next =>
    cases hqf
    unfold writtenPower at hfe
    split at hfe
    next => exact hfe
    next => cases hfe

variable [CharZero K]

/-! ## Collected terms -/

theorem Realm.flatProduct_value {R : Realm} {es : List Expr} {o : Except Fault Expr}
    (hes : ∀ e ∈ es, Defined I S e) (h : R.FlatProduct es o) :
    ∃ r, o = .ok r ∧ Defined I S r ∧ r.value I = (es.map (Expr.value I)).prod := by
  obtain ⟨r, ho, hr, hv⟩ := R.product_value (Defined.flatten hes) h
  exact ⟨r, ho, hr, by rw [hv, Defined.flatten_prod hes]⟩

/-- A summand that multiplies out to the empty product. -/
def Realm.Collapses (R : Realm) (e : Expr) : Prop :=
  ∃ r, R.FlatProduct [e] (.ok r) ∧ r.isEmptyProduct = true

/-- **A summand collapses or splits.** -/
theorem Realm.split_value {R : Realm} {e : Expr} {o : Except Fault (Number × Option Expr)}
    (he : Defined I S e) (h : R.Split e o) :
    (o = .error .missingOperand ∧ R.Collapses e) ∨ DefinedSplit I S o (e.value I) := by
  obtain ⟨p, hp, rfl⟩ := h
  obtain ⟨r, rfl, hr, hv⟩ := R.flatProduct_value (List.forall_mem_singleton.2 he) hp
  rw [List.map_singleton, List.prod_singleton] at hv
  rcases splitOf_value hr with ⟨hs, hempty⟩ | ⟨-, hs⟩
  · exact .inl ⟨hs, r, hp, hempty⟩
  · rw [← hv]
    exact .inr hs

/-- Coefficients of one monomial are added. -/
theorem tally_terms_value {m : Expr} {c : Number} (hm : DefinedTerm I S m c) :
    ∀ {l : Tally}, (∀ q ∈ l, DefinedTerm I S q.1 q.2) →
      ∃ l', tally m c l = .ok l' ∧ (∀ q ∈ l', DefinedTerm I S q.1 q.2) ∧
        (l'.map (termValue I)).sum = (l.map (termValue I)).sum + termValue I (m, c)
  | [], _ => by
      refine ⟨[(m, c)], ?_, by simpa using hm, by simp⟩
      rw [tally, Number.zero_add_of_isProper (Number.isProper_of_isRational hm.2)]
      rfl
  | (x, n) :: rest, hl => by
      rw [List.forall_mem_cons] at hl
      rw [tally]
      split
      next hsame =>
        obtain ⟨p, hp⟩ := Number.eq_ofRat hl.1.2
        obtain ⟨q, rfl⟩ := Number.eq_ofRat hm.2
        have hv := Expr.value_of_same I hl.1.1.exact hsame
        simp only at hp hv
        subst hp
        refine ⟨(x, .ofRat (p + q)) :: rest, rfl, List.forall_mem_cons.2 ⟨⟨hl.1.1, rfl⟩, hl.2⟩, ?_⟩
        simp only [List.map_cons, List.sum_cons, termValue, Number.value_ofRat, Rat.cast_add, hv]
        ring
      next =>
        obtain ⟨l', h, hd, hv⟩ := tally_terms_value hm hl.2
        refine ⟨(x, n) :: l', by rw [h]; rfl, List.forall_mem_cons.2 ⟨hl.1, hd⟩, ?_⟩
        rw [List.map_cons, List.sum_cons, hv, List.map_cons, List.sum_cons, add_assoc]

/-- **Collected terms have the sum of the values of the summands**, unless one of these collapses. -/
theorem Realm.collected_value {R : Realm} {es : List Expr} {s : Terms} {o : Except Fault Terms}
    (h : R.Collected es s o) (hes : ∀ e ∈ es, Defined I S e) (hs : DefinedTerms I S s) :
    (o = .error .missingOperand ∧ ∃ e ∈ es, R.Collapses e) ∨
      ∃ s', o = .ok s' ∧ DefinedTerms I S s' ∧
        s'.value I = s.value I + (es.map (Expr.value I)).sum := by
  induction h with
  | nil => exact .inr ⟨_, rfl, hs, by simp⟩
  | @fault e rest s f hsplit =>
      rcases R.split_value (hes e (by simp)) hsplit with ⟨ho, hc⟩ | ⟨v, m, ho, -⟩
      · cases ho
        exact .inl ⟨rfl, e, by simp, hc⟩
      · cases ho
  | @constant e rest s v c o hsplit hadd _ ih =>
      rw [List.forall_mem_cons] at hes
      rcases R.split_value hes.1 hsplit with ⟨ho, -⟩ | ⟨q, m, ho, hm, hv⟩
      · cases ho
      · cases ho
        obtain ⟨p, hp⟩ := Number.eq_ofRat hs.constant
        rw [hp, Number.add_ofRat] at hadd
        cases hadd
        rcases ih hes.2 ⟨rfl, hs.monomials⟩ with ⟨ho, e', he', hc⟩ | ⟨s', ho, hd, hv'⟩
        · exact .inl ⟨ho, e', by simp [he'], hc⟩
        · refine .inr ⟨s', ho, hd, ?_⟩
          rw [hv', List.map_cons, List.sum_cons, ← hv]
          simp only [Terms.value, hp, monomialValue, Number.value_ofRat, Rat.cast_add,
            Option.elim_none, mul_one]
          ring
  | @monomial e rest s v m l o hsplit htally _ ih =>
      rw [List.forall_mem_cons] at hes
      rcases R.split_value hes.1 hsplit with ⟨ho, -⟩ | ⟨q, m', ho, hm, hv⟩
      · cases ho
      · cases ho
        have hterm : DefinedTerm I S m (.ofRat q) := ⟨hm m rfl, rfl⟩
        obtain ⟨l', hl', hd', hlv⟩ := tally_terms_value hterm hs.monomials
        rw [hl'] at htally
        cases htally
        rcases ih hes.2 ⟨hs.constant, hd'⟩ with ⟨ho, e', he', hc⟩ | ⟨s', ho, hd, hv'⟩
        · exact .inl ⟨ho, e', by simp [he'], hc⟩
        · refine .inr ⟨s', ho, hd, ?_⟩
          rw [hv', List.map_cons, List.sum_cons, ← hv]
          simp only [Terms.value, hlv, monomialValue, termValue, Number.value_ofRat,
            Option.elim_some]
          ring

/-! ## Sums -/

/-- A coefficient times a monomial has the value of the term. -/
theorem Realm.term_value {R : Realm} {q : Expr × Number} {o : Except Fault Expr}
    (hq : DefinedTerm I S q.1 q.2) (h : R.FlatProduct [.number q.2, q.1] o) :
    ∃ r, o = .ok r ∧ Defined I S r ∧ r.value I = termValue I q := by
  obtain ⟨m, c⟩ := q
  obtain ⟨hm, hc⟩ := hq
  simp only at hm hc h
  obtain ⟨p, rfl⟩ := Number.eq_ofRat hc
  rcases hm with hm | rfl
  · have hpm : ∀ e ∈ [.number (.ofRat p), m], Defined I S e := by simpa using ⟨.number p, hm⟩
    obtain ⟨r, ho, hr, hv⟩ := R.flatProduct_value hpm h
    exact ⟨r, ho, hr, by rw [hv]; simp [termValue]⟩
  · have hp : ∀ e ∈ [.number (.ofRat p)], Defined I S e := by simpa using .number p
    obtain ⟨r, ho, hr, hv⟩ := R.product_value hp h
    exact ⟨r, ho, hr, by rw [hv]; simp [termValue]⟩

theorem Realm.summands_value {R : Realm} : ∀ {terms : Tally} {summands : List Expr},
    (∀ q ∈ terms, DefinedTerm I S q.1 q.2) →
    List.Forall₂ (fun q e => R.FlatProduct [.number q.2, q.1] (.ok e)) terms summands →
    (∀ e ∈ summands, Defined I S e) ∧
      (summands.map (Expr.value I)).sum = (terms.map (termValue I)).sum
  | [], [], _, _ => by simp
  | q :: terms, e :: summands, hd, h => by
      rw [List.forall_mem_cons] at hd
      rw [List.forall₂_cons] at h
      obtain ⟨r, ho, hr, hv⟩ := R.term_value hd.1 h.1
      cases ho
      obtain ⟨hd', hv'⟩ := Realm.summands_value hd.2 h.2
      refine ⟨List.forall_mem_cons.2 ⟨hr, hd'⟩, ?_⟩
      rw [List.map_cons, List.sum_cons, hv, hv', List.map_cons, List.sum_cons]

/-- **A sum of expressions with values has the sum of their values, unless a summand collapses.** -/
theorem Realm.sum_value {R : Realm} {es : List Expr} {o : Except Fault Expr}
    (hes : ∀ e ∈ es, Defined I S e) (h : R.Sum es o) :
    (o = .error .missingOperand ∧ ∃ e ∈ es, R.Collapses e) ∨
      ∃ r, o = .ok r ∧ Defined I S r ∧ r.value I = (es.map (Expr.value I)).sum := by
  have hempty : DefinedTerms I S {} := ⟨rfl, by simp⟩
  rcases h with ⟨f, hf, rfl⟩ | ⟨s, hs, hrest⟩
  · rcases R.collected_value hf hes hempty with ⟨ho, hc⟩ | ⟨s, ho, -⟩
    · cases ho
      exact .inl ⟨rfl, hc⟩
    · cases ho
  · rcases R.collected_value hs hes hempty with ⟨ho, -⟩ | ⟨s', ho, hd, hv⟩
    · cases ho
    cases ho
    rcases hrest with ⟨f, rfl, q, hq, -, hf | hf⟩ | ⟨terms, summands, harranged, hterms, rfl⟩
    · exact absurd hf (monomialFactors_defined (hd.monomials q hq).1)
    · obtain ⟨r, ho, -⟩ := R.term_value (hd.monomials q hq) hf
      cases ho
    · have hperm := R.arrangedTerms_perm harranged
      have hterms' : ∀ q ∈ terms, DefinedTerm I S q.1 q.2 :=
        fun q hq => hd.monomials q (List.mem_filter.1 (hperm.mem_iff.1 hq)).1
      obtain ⟨hsd, hsv⟩ := R.summands_value hterms' hterms
      obtain ⟨c, hc⟩ := Number.eq_ofRat hd.constant
      obtain ⟨hrd, hrv⟩ := sumOf_value (c := c) hsd
      refine .inr ⟨_, rfl, by rwa [hc], ?_⟩
      have hsum : (terms.map (termValue I)).sum = (s.monomials.map (termValue I)).sum := by
        rw [(hperm.map _).sum_eq, filter_terms_value hd.monomials]
      rw [hc, hrv, hsv, hsum]
      simpa [Terms.value, hc] using hv

/-- A summand that collapses leaves no terms. -/
theorem Realm.collected_of_collapses {R R' : Realm} {es : List Expr} {s : Terms}
    {o : Except Fault Terms} (h : R.Collected es s o) (hes : ∀ e ∈ es, Defined I S e) {e : Expr}
    (he : e ∈ es) (hc : R'.Collapses e) : o = .error .missingOperand := by
  have hsplit : ∀ {e : Expr} {o}, Defined I S e → R'.Collapses e → R.Split e o →
      o = .error .missingOperand := by
    rintro e _ hd ⟨r, hr, hre⟩ ⟨p, hp, rfl⟩
    obtain ⟨r', rfl, hre'⟩ := Realm.isEmptyProduct_unique
      (Defined.flatten (a := some "Multiply") (List.forall_mem_singleton.2 hd)) hr hre hp
    obtain ⟨d, c, rfl⟩ := Expr.eq_of_isEmptyProduct hre'
    rfl
  induction h with
  | nil => cases he
  | fault hs =>
      rw [List.forall_mem_cons] at hes
      rcases R.split_value hes.1 hs with ⟨ho, -⟩ | ⟨v, m, ho, -⟩
      · cases ho
        rfl
      · cases ho
  | constant hs _ _ ih =>
      rw [List.forall_mem_cons] at hes
      rcases List.mem_cons.1 he with rfl | he
      · cases hsplit hes.1 hc hs
      · exact ih hes.2 he
  | monomial hs _ _ ih =>
      rw [List.forall_mem_cons] at hes
      rcases List.mem_cons.1 he with rfl | he
      · cases hsplit hes.1 hc hs
      · exact ih hes.2 he

/-- **There is no sum with a summand that collapses.** -/
theorem Realm.sum_of_collapses {R R' : Realm} {es : List Expr} {o : Except Fault Expr}
    (hes : ∀ e ∈ es, Defined I S e) {e : Expr} (he : e ∈ es) (hc : R'.Collapses e)
    (h : R.Sum es o) : o = .error .missingOperand := by
  rcases h with ⟨f, hf, rfl⟩ | ⟨s, hs, -⟩
  · cases Realm.collected_of_collapses hf hes he hc
    rfl
  · cases Realm.collected_of_collapses hs hes he hc

end Kernel

end SymbolicAlgebra
