import SymbolicAlgebra.Proofs.Pieces

/-!
# Proofs/Product — what `mul` gives

A *realm* fixes what is known about all expressions of a computation beyond their structure, and
about the order that powers are brought into.  `Realm.Product` says what a product of bare
expressions is: the pieces are multiplied, the powers arranged and written down again.
`Realm.yields_mul` says that `mul` gives such a product, whatever the pool holds.
-/

namespace SymbolicAlgebra.Kernel

/-! ## Realms -/

/-- The operators that arithmetic builds applications of. -/
def arithmeticOperators : List String := ["Add", "Multiply", "Negate", "Divide", "Power"]

/-- What is known about the expressions of a computation, and how powers and terms are arranged. -/
structure Realm where
  table : DefinitionTable
  settings : Settings
  Good : Expr → Prop
  /-- One arrangement of the powers of a product. -/
  Arranged : Tally → Tally → Prop
  /-- One arrangement of the terms of a sum. -/
  ArrangedTerms : Tally → Tally → Prop
  proper : ∀ {e}, Good e → e.isOver Number.isProper = true
  good_number : ∀ {v}, v.isProper = true → Good (.number v)
  good_node : ∀ {f ops}, f ∈ arithmeticOperators → (∀ x ∈ ops, Good x) →
    Good (.application f ops (table.functionNumber? f) true)
  good_operand : ∀ {f ops d c}, Good (.application f ops d c) → ∀ x ∈ ops, Good x
  arranged : ∀ {l}, (∀ q ∈ l, Good q.1) → Arranged (bareTally (sortPowers table l)) (bareTally l)
  arranged_perm : ∀ {l l'}, Arranged l' l → l'.Perm l
  arrangedTerms : ∀ {l l'}, (∀ q ∈ l, Good q.1) → sortTerms table l = .ok l' →
    ArrangedTerms (bareTally l') (bareTally l)
  arrangedTerms_perm : ∀ {l l'}, ArrangedTerms l' l → l'.Perm l

namespace Realm

variable {R : Realm} {E : Fault → Prop} {k : Kernel}

theorem exact {e : Expr} (he : R.Good e) : e.isExact = true :=
  Expr.isOver_mono (fun _ => Number.isExact_of_isProper) (R.proper he)

theorem valid {es : List Expr} (hes : ∀ e ∈ es, R.Good e) : Expr.allValid es = true :=
  Expr.allValid_of_allOver (Expr.allOver_iff.2 fun e he => R.proper (hes e he))

/-- A kernel of the realm: it has the definitions and settings of the realm, and what its pool offers
instead of a good expression is good. -/
structure Holds (R : Realm) (k : Kernel) : Prop where
  table : k.table = R.table
  settings : k.settings = R.settings
  pool : ∀ x ∈ k.pool, ∀ e, R.Good e → e.same x = true → R.Good x

/-- Interning stays in the realm and keeps the structure. -/
theorem yields_intern {e : Expr} (hk : R.Holds k) (he : R.Good e) :
    Yields E (intern e) k fun r k' => R.Holds k' ∧ R.Good r ∧ r.bare = e.bare := by
  refine Kernel.yields_intern (fun x hx hsame => ?_) ⟨⟨hk.table, hk.settings, ?_⟩, he, rfl⟩
  · exact ⟨hk, hk.pool x hx e he hsame, ((Expr.same_iff (exact he)).1 hsame).symm⟩
  · intro x hx
    rcases List.mem_cons.1 hx with rfl | hx
    · exact fun _ _ _ => he
    · exact hk.pool x hx

theorem yields_makeNumber {v : Number} (hk : R.Holds k) (hv : v.isProper = true) :
    Yields E (makeNumber v) k fun r k' => R.Holds k' ∧ r = .number v := by
  refine (yields_intern hk (R.good_number hv)).mono fun r k' h => ⟨h.1, ?_⟩
  have hr : r.bare = .number v := h.2.2
  cases r <;> simp_all [Expr.bare]

theorem yields_apply {f : String} {ops : List Expr} (hk : R.Holds k)
    (hf : f ∈ arithmeticOperators) (hops : ∀ x ∈ ops, R.Good x) :
    Yields E (apply f ops) k fun r k' =>
      R.Holds k' ∧ R.Good r ∧ r.bare = .node f (ops.map Expr.bare) := by
  have hnode : R.Good (.application f ops (k.table.functionNumber? f) true) := by
    rw [hk.table]
    exact R.good_node hf hops
  refine Kernel.yields_apply ((yields_intern hk hnode).mono fun r k' h => ⟨h.1, h.2.1, ?_⟩)
  rw [h.2.2, Expr.bare_application]

end Realm

theorem sortPowers_perm (t : DefinitionTable) (powers : Tally) :
    (sortPowers t powers).Perm powers := by
  have h := (List.mergeSort_perm (powers.map fun p => (OrderKey.of t p.1, p))
    fun x y => x.1.le y.1).map (·.2)
  rwa [List.map_map, List.map_id''] at h
  exact fun _ => rfl

/-! ## Products of bare expressions -/

/-- A power that is a number. -/
def foldedPower (precision : Nat) (base : Expr) (exponent : Number) :
    Except NumberFault (Option Number) :=
  match base with
  | .number b => exactPower? precision b exponent
  | _ => .ok none

/-- A power as a factor. -/
def writtenPower (base : Expr) (exponent : Number) : Expr :=
  if exponent.isOne then base else .node "Power" [base, .number exponent]

/-- Coefficient and factors that arranged powers are written as. -/
def factorsOf (precision : Nat) : Tally → Number → Except NumberFault (Number × List Expr)
  | [], coefficient => .ok (coefficient, [])
  | (base, exponent) :: rest, coefficient =>
      if exponent.isZero then factorsOf precision rest coefficient
      else do
        match ← foldedPower precision base exponent with
        | some v => factorsOf precision rest (← coefficient.mul v)
        | none =>
            let (coefficient, factors) ← factorsOf precision rest coefficient
            return (coefficient, writtenPower base exponent :: factors)

/-- The product of factors without a coefficient. -/
def bareProduct : List Expr → Expr
  | [f] => f
  | fs => .node "Multiply" fs

/-- The product of a coefficient and factors. -/
def productOf (coefficient : Number) (factors : List Expr) : Expr :=
  if coefficient.isZero || factors.isEmpty then .number coefficient
  else if coefficient.isOne then bareProduct factors
  else if coefficient.isNegativeOne then .node "Negate" [bareProduct factors]
  else .node "Multiply" (.number coefficient :: factors)

/-- Arranged powers, written down. -/
def written (precision : Nat) (powers : Tally) (coefficient : Number) : Except Fault Expr := do
  let (coefficient, factors) ← liftNumber (factorsOf precision powers coefficient)
  return productOf coefficient factors

/-- What a product of factors may be: their pieces multiplied, arranged and written down. -/
def Realm.Product (R : Realm) (es : List Expr) (o : Except Fault Expr) : Prop :=
  (∃ f, multiplyAll (piecesAll es) {} = .error f ∧ o = .error f) ∨
    ∃ p powers, multiplyAll (piecesAll es) {} = .ok p ∧ R.Arranged powers p.powers ∧
      o = written R.settings.precision powers p.coefficient

/-! ## What the steps of `mul` give -/

theorem foldedPower_bare (precision : Nat) (base : Expr) (exponent : Number) :
    foldedPower precision base.bare exponent = foldedPower precision base exponent := by
  cases base <;> rfl

/-- What is folded into a coefficient is exact. -/
theorem isExact_of_foldedPower {precision : Nat} {base : Expr} {exponent v : Number}
    (hb : base.isExact = true) (he : exponent.isExact = true)
    (h : foldedPower precision base exponent = .ok (some v)) : v.isExact = true := by
  cases base with
  | number b =>
      have hb' : b.isExact = true := hb
      simp only [foldedPower, exactPower?] at h
      cases hp : b.pow precision exponent with
      | error f => simp [hp, bind, Except.bind] at h
      | ok w =>
          simp only [hp, hb', he, bind, Except.bind, pure, Except.pure] at h
          by_cases hw : w.isExact = true <;> simp_all
  | _ => simp [foldedPower] at h

/-- The step of `makeFactors` that folds a power of a number. -/
def foldPower (base : Expr) (exponent : Number) : Action (Option Number) :=
  match base with
  | .number b => do number (exactPower? (← getPrecision) b exponent)
  | _ => pure none

/-- The step of `makeFactors` that writes a power down. -/
def writePower (base : Expr) (exponent : Number) : Action Expr :=
  if exponent.isOne then pure base else do apply "Power" [base, ← makeNumber exponent]

/-- `makeFactors` in its two steps. -/
theorem makeFactors_cons (base : Expr) (exponent : Number) (rest : Tally) (c : Number) :
    makeFactors ((base, exponent) :: rest) c =
      if exponent.isZero then makeFactors rest c
      else do
        match ← foldPower base exponent with
        | some v => makeFactors rest (← number (c.mul v))
        | none =>
            let factor ← writePower base exponent
            let (c, factors) ← makeFactors rest c
            return (c, factor :: factors) := by
  rw [makeFactors, writePower]
  split
  next => rfl
  next =>
    cases base with
    | number b =>
        simp only [foldPower, bind_assoc]
        split <;> simp only [bind_assoc, pure_bind] <;> rfl
    | _ =>
        simp only [foldPower, pure_bind]
        split <;> simp only [bind_assoc, pure_bind]

namespace Realm

variable {R : Realm} {E : Fault → Prop} {k : Kernel}

theorem yields_foldPower {base : Expr} {exponent : Number} (hk : R.Holds k) :
    Yields (fun f => ∃ g, f = .number g ∧
        foldedPower R.settings.precision base exponent = .error g)
      (foldPower base exponent) k
      fun o k' => k' = k ∧ foldedPower R.settings.precision base exponent = .ok o := by
  cases base with
  | number b =>
      refine Yields.bind (P := fun p k' => p = R.settings.precision ∧ k' = k)
        (yields_getPrecision ⟨by rw [hk.settings], rfl⟩) ?_
      rintro p k' ⟨rfl, rfl⟩
      exact yields_number (fun f hf => ⟨f, rfl, hf⟩) fun o ho => ⟨rfl, ho⟩
  | _ => exact Yields.pure ⟨rfl, rfl⟩

theorem yields_writePower {base : Expr} {exponent : Number} (hk : R.Holds k) (hb : R.Good base)
    (he : exponent.isProper = true) :
    Yields E (writePower base exponent) k fun r k' =>
      R.Holds k' ∧ R.Good r ∧ r.bare = writtenPower base.bare exponent := by
  unfold writePower writtenPower
  split
  next => exact Yields.pure ⟨hk, hb, rfl⟩
  next =>
    refine (yields_makeNumber hk he).bind fun n k' h => ?_
    obtain ⟨hk', rfl⟩ := h
    refine yields_apply hk' (by decide) ?_
    simp only [List.forall_mem_cons]
    exact ⟨hb, R.good_number he, by simp⟩

/-- **Collected powers become the factors that they are written as.** -/
theorem yields_makeFactors : ∀ {powers : Tally} {c : Number} {k : Kernel}, R.Holds k →
    (∀ q ∈ powers, R.Good q.1 ∧ q.2.isProper = true) → c.isProper = true →
    Yields (fun f => ∃ g, f = .number g ∧
        factorsOf R.settings.precision (bareTally powers) c = .error g)
      (makeFactors powers c) k fun r k' => R.Holds k' ∧ r.1.isProper = true ∧
        (∀ x ∈ r.2, R.Good x) ∧
        factorsOf R.settings.precision (bareTally powers) c = .ok (r.1, r.2.map Expr.bare)
  | [], c, k, hk, _, hc => Yields.pure ⟨hk, hc, by simp, rfl⟩
  | (base, exponent) :: rest, c, k, hk, hp, hc => by
      rw [List.forall_mem_cons] at hp
      obtain ⟨⟨hb, he⟩, hrest⟩ := hp
      rw [makeFactors_cons, bareTally_cons, factorsOf, foldedPower_bare]
      split
      next => exact yields_makeFactors hk hrest hc
      next =>
        refine Yields.bind ((yields_foldPower hk).imp ?_ fun _ _ h => h) fun folded k' h => ?_
        · rintro _ ⟨g, rfl, hg⟩
          exact ⟨g, rfl, by rw [hg]; rfl⟩
        obtain ⟨rfl, hfold⟩ := h
        rw [hfold]
        cases folded with
        | some v =>
            have hv := isExact_of_foldedPower (exact hb) (Number.isExact_of_isProper he) hfold
            obtain ⟨c', hc', hproper⟩ := Number.mul_isProper (Number.isExact_of_isProper hc) hv
            refine Yields.bind (P := fun x k'' => x = c' ∧ k'' = k')
              (yields_number_ok hc' ⟨rfl, rfl⟩) ?_
            rintro _ _ ⟨rfl, rfl⟩
            refine (yields_makeFactors hk hrest hproper).imp ?_ ?_
            · rintro _ ⟨g, rfl, hg⟩
              exact ⟨g, rfl, by simpa [bind, Except.bind, hc'] using hg⟩
            · rintro r k'' ⟨h1, h2, h3, h4⟩
              exact ⟨h1, h2, h3, by simpa [bind, Except.bind, hc'] using h4⟩
        | none =>
            refine (yields_writePower hk hb he).bind fun factor k'' h => ?_
            obtain ⟨hk'', hgood, hbare⟩ := h
            refine Yields.bind ((yields_makeFactors hk'' hrest hc).imp ?_ fun _ _ h => h) ?_
            · rintro _ ⟨g, rfl, hg⟩
              exact ⟨g, rfl, by simp [bind, Except.bind, hg]⟩
            · rintro ⟨c', factors⟩ k₃ ⟨h1, h2, h3, h4⟩
              refine Yields.pure ⟨h1, h2, List.forall_mem_cons.2 ⟨hgood, h3⟩, ?_⟩
              simp [bind, Except.bind, h4, hbare, pure, Except.pure]

theorem yields_assembleProduct {c : Number} {fs : List Expr} (hk : R.Holds k)
    (hc : c.isProper = true) (hfs : ∀ x ∈ fs, R.Good x) :
    Yields E (assembleProduct c fs) k fun r k' =>
      R.Holds k' ∧ R.Good r ∧ r.bare = productOf c (fs.map Expr.bare) := by
  have hnumber : Yields E (makeNumber c) k fun r k' => R.Holds k' ∧ R.Good r ∧ r.bare = .number c :=
    (yields_makeNumber hk hc).mono fun r k' h => ⟨h.1, h.2 ▸ R.good_number hc, by rw [h.2]; rfl⟩
  have hproduct : ∀ {f g rest}, fs = f :: g :: rest → Yields E (apply "Multiply" fs) k fun r k' =>
      R.Holds k' ∧ R.Good r ∧ r.bare = bareProduct (fs.map Expr.bare) := by
    rintro f g rest rfl
    exact yields_apply hk (by decide) hfs
  have hrest : ∀ {p : Expr} {k'}, R.Holds k' → R.Good p → p.bare = bareProduct (fs.map Expr.bare) →
      Yields E (if c.isOne then pure p else if c.isNegativeOne then apply "Negate" [p]
        else do apply "Multiply" ((← makeNumber c) :: fs)) k' fun r k'' => R.Holds k'' ∧ R.Good r ∧
          r.bare = if c.isOne then bareProduct (fs.map Expr.bare)
            else if c.isNegativeOne then .node "Negate" [bareProduct (fs.map Expr.bare)]
            else .node "Multiply" (.number c :: fs.map Expr.bare) := by
    intro p k' hk' hp hbare
    split
    next => exact Yields.pure ⟨hk', hp, hbare⟩
    next =>
      split
      next =>
        refine (yields_apply hk' (by decide) (by simpa using hp)).mono fun r k'' h => ?_
        exact ⟨h.1, h.2.1, by rw [h.2.2, List.map_singleton, hbare]⟩
      next =>
        refine (yields_makeNumber hk' hc).bind fun n k'' h => ?_
        obtain ⟨hk'', rfl⟩ := h
        exact yields_apply hk'' (by decide) (List.forall_mem_cons.2 ⟨R.good_number hc, hfs⟩)
  unfold assembleProduct productOf
  rw [Number.isNaN_of_isExact (Number.isExact_of_isProper hc), Bool.false_or]
  by_cases hz : c.isZero = true
  · simpa [hz] using hnumber
  · rcases fs with _ | ⟨f, _ | ⟨g, rest⟩⟩
    · simpa [hz] using hnumber
    · simpa [hz] using hrest hk (hfs f (by simp)) rfl
    · simp only [hz, List.map_cons, List.isEmpty_cons, Bool.or_self, Bool.false_eq_true, if_false]
      exact (hproduct rfl).bind fun p k' h => hrest h.1 h.2.1 h.2.2

/-- Bases in the realm with proper exponents, and proper coefficients, are kept by collecting. -/
theorem collectable : Collectable (fun b n => R.Good b ∧ n.isProper = true)
    (fun v => v.isProper = true) := collectable_proper R.Good

theorem dissectible : Dissectible R.Good (fun b n => R.Good b ∧ n.isProper = true)
    (fun v => v.isProper = true) True where
  number := fun h => R.proper h
  operand := fun _ => R.good_operand
  power := fun h =>
    ⟨R.good_operand h _ (by simp), R.proper (R.good_operand h (.number _) (by simp))⟩
  base := fun h _ => ⟨h, rfl⟩
  missing := fun _ _ => trivial

theorem meets_empty : ({} : Factors).Meets (fun b n => R.Good b ∧ n.isProper = true)
    (fun v => v.isProper = true) := ⟨rfl, by simp⟩

theorem good_flatten {a : Option String} {es : List Expr} (hes : ∀ e ∈ es, R.Good e) :
    ∀ e ∈ Expr.flatten a es, R.Good e :=
  Expr.forall_flatten (fun _ _ _ _ _ h => R.good_operand h) hes

/-- **The pieces of good factors, multiplied**: one is missing, or all stays in the realm, and bare
pieces give the bare product. -/
theorem collected {es : List Expr} (hes : ∀ e ∈ es, R.Good e) :
    (collectFactors es {} = .error .missingOperand ∧
        multiplyAll (piecesAll (es.map Expr.bare)) {} = .error .missingOperand) ∨
      ∃ p, collectFactors es {} = .ok p ∧ (∀ q ∈ p.powers, R.Good q.1 ∧ q.2.isProper = true) ∧
        p.coefficient.isProper = true ∧
        multiplyAll (piecesAll (es.map Expr.bare)) {} = .ok p.bare := by
  have hps := R.dissectible.piecesAll hes
  have hbare : multiplyAll (piecesAll (es.map Expr.bare)) {} = (collectFactors es {}).map .bare := by
    rw [piecesAll_bare, collectFactors_eq]
    exact multiplyAll_bare (fun h => exact h.1) collectable hps meets_empty
  rw [hbare, collectFactors_eq]
  rcases R.collectable.multiplyAll hps meets_empty with ⟨-, h⟩ | ⟨p, h, hp⟩
  · exact .inl ⟨h, by rw [h]; rfl⟩
  · exact .inr ⟨p, h, hp.powers, hp.coefficient, by rw [h]; rfl⟩

/-- What `mul` does once it is not cut short. -/
theorem yields_multiply {es : List Expr} (hk : R.Holds k) (hes : ∀ e ∈ es, R.Good e) :
    Yields (fun f => R.Product (es.map Expr.bare) (.error f)) (mul.multiply es) k fun r k' =>
      R.Holds k' ∧ R.Good r ∧ R.Product (es.map Expr.bare) (.ok r.bare) := by
  unfold mul.multiply
  rcases R.collected hes with ⟨h, hb⟩ | ⟨p, h, hp, hc, hb⟩
  · rw [h]
    exact .inl ⟨_, hb, rfl⟩
  · rw [h]
    have hgood : ∀ q ∈ sortPowers R.table p.powers, R.Good q.1 ∧ q.2.isProper = true :=
      fun q hq => hp q ((sortPowers_perm R.table p.powers).mem_iff.1 hq)
    have harranged := R.arranged fun q hq => (hp q hq).1
    refine Yields.bind (P := fun p' k' => p' = p ∧ R.Holds k') ⟨rfl, hk⟩ ?_
    rintro _ k ⟨rfl, hk⟩
    refine Yields.bind (P := fun t k' => t = R.table ∧ R.Holds k')
      (yields_getTable ⟨hk.table, hk⟩) ?_
    rintro _ k ⟨rfl, hk⟩
    refine Yields.bind ((yields_makeFactors hk hgood hc).imp ?_ fun _ _ h => h) ?_
    · rintro _ ⟨g, rfl, hg⟩
      exact .inr ⟨_, _, hb, harranged, by rw [written, Factors.bare, hg]; rfl⟩
    · rintro ⟨c, fs⟩ k' ⟨hk', hc', hfs, hf⟩
      refine (yields_assembleProduct hk' hc' hfs).mono fun r k'' h => ⟨h.1, h.2.1, ?_⟩
      exact .inr ⟨_, _, hb, harranged, by rw [written, Factors.bare, hf, h.2.2]; rfl⟩

/-- A factor that stands for itself is the product of itself alone. -/
theorem product_singleton {e : Expr} (he : R.Good e)
    (hp : IsBase e ∨ ∃ v, e = .number v) :
    R.Product [e.bare] (.ok e.bare) := by
  have hall : piecesAll [e.bare] = (pieces e).map Piece.bare := by
    rw [piecesAll, piecesAll, List.append_nil, pieces_bare]
  rcases hp with hp | ⟨v, rfl⟩
  · have harranged := R.arranged (l := [(e, .one)]) (by simpa using he)
    have hsort := List.perm_singleton.1 (R.arranged_perm harranged)
    rw [hsort] at harranged
    refine .inr ⟨⟨.one, [(e.bare, .one)]⟩, _, ?_, harranged, ?_⟩
    · rw [hall, hp.pieces]
      exact multiplyAll_power e.bare Number.isProper_one
    · cases e with
      | number v => cases hp.notNumber
      | _ => rfl
  · have harranged := R.arranged (l := []) (by simp)
    have hsort := List.perm_nil.1 (R.arranged_perm harranged)
    rw [hsort] at harranged
    refine .inr ⟨⟨v, []⟩, _, multiplyAll_number (R.proper he), harranged, ?_⟩
    simp [written, factorsOf, productOf, liftNumber, bind, Except.bind, pure, Except.pure]

theorem product_nil : R.Product [] (.ok (.number .one)) := by
  have harranged := R.arranged (l := []) (by simp)
  have hsort := List.perm_nil.1 (R.arranged_perm harranged)
  rw [hsort] at harranged
  exact .inr ⟨{}, _, rfl, harranged, rfl⟩

/-- **`mul` gives a product of its flattened operands**, or the fault that this product has. -/
theorem yields_mul {ops : List Expr} (hk : R.Holds k) (hops : ∀ e ∈ ops, R.Good e) :
    Yields (fun f => R.Product (Expr.flatten (some "Multiply") (ops.map Expr.bare)) (.error f))
      (mul ops) k fun r k' => R.Holds k' ∧ R.Good r ∧
        R.Product (Expr.flatten (some "Multiply") (ops.map Expr.bare)) (.ok r.bare) := by
  have hes := R.good_flatten (a := some "Multiply") hops
  have hleaf : ∀ e ∈ Expr.flatten (some "Multiply") ops, e.isLeaf (some "Multiply") = true :=
    fun e he => Expr.isLeaf_of_mem_flatten he
  rw [Expr.flatten_map_bare]
  unfold mul
  simp only [valid hes, Bool.not_true, Bool.false_eq_true, if_false]
  generalize Expr.flatten (some "Multiply") ops = es at hes hleaf
  rcases es with _ | ⟨e, _ | ⟨e', rest⟩⟩
  · exact (yields_makeNumber hk rfl).mono fun r k' h =>
      ⟨h.1, h.2 ▸ R.good_number rfl, h.2 ▸ product_nil⟩
  · have he : R.Good e := hes e (by simp)
    simp only
    split
    next hdirect =>
      refine Yields.pure ⟨hk, he, product_singleton he ?_⟩
      rw [Bool.and_eq_true, bne_iff_ne, bne_iff_ne] at hdirect
      exact isBase_of_isLeaf (hleaf e (by simp)) hdirect.1 hdirect.2
    next => exact yields_multiply hk hes
  · exact yields_multiply hk hes

end Realm

end SymbolicAlgebra.Kernel
