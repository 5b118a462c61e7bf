import SymbolicAlgebra.Expansion
import SymbolicAlgebra.Proofs.Calculation
import SymbolicAlgebra.Proofs.Multinomial

/-!
# Proofs/ExpansionValue — expansion keeps the value

Products are distributed pair by pair (`Realm.gives_distribute2`), whole powers of sums follow the
multinomial theorem (`Realm.gives_expandHighPower`), and `Realm.gives_expand?` puts both together.
All of it holds in every realm of canonical expressions without empty sums.
-/

namespace SymbolicAlgebra

/-- No empty sums and products, and no relations. -/
structure Shape.Expandable (S : Shape) : Prop where
  filled : ∀ {f ops}, S.Allows f ops → f = "Add" ∨ f = "Multiply" → ops ≠ []
  noRelation : ∀ {f ops}, S.Allows f ops → Relation.ofOperator? f = none

namespace Kernel

variable {K : Type*} [Field K] {I : Interpretation K} {S : Shape} {R : Realm} {E : Fault → Prop}
  {k : Kernel}

namespace Realm

/-- All expressions of the realm are canonical. -/
def Canonical (R : Realm) : Prop := ∀ e, R.Good e → e.isCanonical = true

/-- An expression of the realm with a value. -/
structure Fine (R : Realm) (I : Interpretation K) (S : Shape) (e : Expr) : Prop where
  good : R.Good e
  defined : Defined I S e

theorem Fine.operand {f : String} {ops : List Expr} {d : Option Nat} {c : Bool}
    (h : R.Fine I S (.application f ops d c)) : ∀ e ∈ ops, R.Fine I S e :=
  fun e he => ⟨R.good_operand h.good e he, h.defined.operand e he⟩

/-- The operation ends with expressions of the given values, in the realm, or with a fault in `E`. -/
def GivesAll (R : Realm) (I : Interpretation K) (S : Shape) (E : Fault → Prop)
    (a : Action (List Expr)) (k : Kernel) (xs : List K) : Prop :=
  Yields E a k fun rs k' => R.Holds k' ∧ (∀ e ∈ rs, R.Fine I S e) ∧ rs.map (Expr.value I) = xs

theorem givesAll_nil (hk : R.Holds k) : R.GivesAll I S E (pure []) k [] :=
  Yields.pure ⟨hk, by simp, rfl⟩

/-- A first expression and then the others. -/
theorem GivesAll.cons {a : Action Expr} {b : Action (List Expr)} {x : K} {xs : List K}
    (ha : R.Gives I S E a k x) (hb : ∀ k, R.Holds k → R.GivesAll I S E b k xs) :
    R.GivesAll I S E (do let e ← a; return e :: (← b)) k (x :: xs) := by
  refine Yields.bind ha fun r k₁ hr => ?_
  refine (hb k₁ hr.1).bind fun rs k₂ hrs => Yields.pure ⟨hrs.1, ?_, ?_⟩
  · exact List.forall_mem_cons.2 ⟨⟨hr.2.1, hr.2.2.1⟩, hrs.2.1⟩
  · rw [List.map_cons, hr.2.2.2, hrs.2.2]

/-! ## Operations on canonical expressions -/

section Canonical

variable [CharZero K] (hc : R.Canonical) (hk : R.Holds k)

include hc hk

theorem gives_addOf (hE : R.Safe I S E) {ops : List Expr} (hops : ∀ e ∈ ops, R.Fine I S e) :
    R.Gives I S E (addOf ops) k (ops.map (Expr.value I)).sum := by
  rw [addOf, canonicalizeAll_of_isCanonical fun e he => hc e (hops e he).good, pure_bind]
  exact gives_add hE hk (fun e he => (hops e he).good) fun e he => (hops e he).defined

theorem gives_mulOf {ops : List Expr} (hops : ∀ e ∈ ops, R.Fine I S e) :
    R.Gives I S E (mulOf ops) k (ops.map (Expr.value I)).prod := by
  rw [mulOf, canonicalizeAll_of_isCanonical fun e he => hc e (hops e he).good, pure_bind]
  exact gives_mul hk (fun e he => (hops e he).good) fun e he => (hops e he).defined

theorem gives_negOf (hE : R.Safe I S E) {e : Expr} (he : R.Fine I S e) :
    R.Gives I S E (negOf e) k (-e.value I) := by
  rw [negOf, canonicalize_of_isCanonical (hc e he.good), pure_bind]
  exact gives_neg hE hk he.good he.defined

theorem gives_divOf {a b : Expr} (ha : R.Fine I S a) (hb : R.Fine I S b) (hne : b.value I ≠ 0) :
    R.Gives I S E (divOf a b) k (a.value I / b.value I) := by
  rw [divOf, canonicalize_of_isCanonical (hc a ha.good), pure_bind,
    canonicalize_of_isCanonical (hc b hb.good), pure_bind]
  exact gives_div hk ha.good ha.defined hb.good hb.defined hne

theorem gives_invOf (hE : R.Safe I S E) {e : Expr} (he : R.Fine I S e) (hne : e.value I ≠ 0) :
    R.Gives I S E (invOf e) k (e.value I)⁻¹ := by
  rw [invOf, canonicalize_of_isCanonical (hc e he.good), pure_bind]
  exact gives_inv hE hk he.good he.defined hne

theorem gives_powOf (hE : R.Safe I S E) {b : Expr} {n : Nat} (hb : R.Fine I S b) :
    R.Gives I S E (powOf b (.number (.ofInt n))) k (b.value I ^ n) := by
  have hn : canonicalize (.number (.ofInt n)) = pure (.number (.ofInt n)) := rfl
  rw [powOf, canonicalize_of_isCanonical (hc b hb.good), pure_bind, hn, pure_bind]
  exact (gives_pow hE hk hb.good hb.defined fun h => absurd h (by omega)).of_eq (zpow_natCast _ _)

end Canonical

section Bound

variable [CharZero K] {a : Action Expr} {x : K}

/-- The opposite of what an operation gives. -/
theorem Gives.negOf (hc : R.Canonical) (hE : R.Safe I S E) (h : R.Gives I S E a k x) :
    R.Gives I S E (do negOf (← a)) k (-x) :=
  h.bind fun _ _ hk hr hrd hrv => (gives_negOf hc hk hE ⟨hr, hrd⟩).of_eq (by rw [hrv])

/-- What an operation gives, divided. -/
theorem Gives.divOf (hc : R.Canonical) (h : R.Gives I S E a k x) {b : Expr} (hb : R.Fine I S b)
    (hne : b.value I ≠ 0) : R.Gives I S E (do divOf (← a) b) k (x / b.value I) :=
  h.bind fun _ _ hk hr hrd hrv => (gives_divOf hc hk ⟨hr, hrd⟩ hb hne).of_eq (by rw [hrv])

/-- The sum of what an operation gives. -/
theorem GivesAll.addOf (hc : R.Canonical) (hE : R.Safe I S E) {a : Action (List Expr)} {xs : List K}
    (h : R.GivesAll I S E a k xs) : R.Gives I S E (do addOf (← a)) k xs.sum :=
  Yields.bind h fun _ _ hr => (gives_addOf hc hr.1 hE hr.2.1).of_eq (by rw [hr.2.2])

end Bound

/-! ## Distribution -/

theorem Fine.quotient {a : Expr} {rest : List Expr} {d : Option Nat} {c : Bool}
    (h : R.Fine I S (.application "Divide" (a :: rest) d c)) :
    ∃ b, rest = [b] ∧ R.Fine I S a ∧ R.Fine I S b ∧ b.value I ≠ 0 := by
  obtain ⟨a', b, hops, hb⟩ := h.defined.quotient_inv
  obtain ⟨rfl, rfl⟩ := List.cons.inj hops
  exact ⟨b, rfl, h.operand a (by simp), h.operand b (by simp), hb⟩

theorem Fine.negation {a : Expr} {rest : List Expr} {d : Option Nat} {c : Bool}
    (h : R.Fine I S (.application "Negate" (a :: rest) d c)) : rest = [] ∧ R.Fine I S a := by
  obtain ⟨a', hops⟩ := h.defined.negation_inv
  obtain ⟨rfl, rfl⟩ := List.cons.inj hops
  exact ⟨rfl, h.operand a (by simp)⟩

mutual

/-- **Distributing two factors has the product of their values.** -/
theorem gives_distribute2 [CharZero K] (hc : R.Canonical) (hE : R.Safe I S E) {a b : Expr}
    {k : Kernel} (hk : R.Holds k) (ha : R.Fine I S a) (hb : R.Fine I S b) :
    R.Gives I S E (distribute2 a b) k (a.value I * b.value I) := by
  have h := distributes a b
  generalize distribute2 a b = x at h ⊢
  cases h with
  | negations x _ _ _ y =>
      obtain ⟨rfl, hx⟩ := ha.negation
      obtain ⟨rfl, hy⟩ := hb.negation
      exact (gives_distribute2 hc hE hk hx hy).of_eq (by simp)
  | ofNegation x =>
      obtain ⟨rfl, hx⟩ := ha.negation
      exact ((gives_distribute2 hc hE hk hx hb).negOf hc hE).of_eq (by simp)
  | byNegation _ y =>
      obtain ⟨rfl, hy⟩ := hb.negation
      exact ((gives_distribute2 hc hE hk ha hy).negOf hc hE).of_eq (by simp)
  | quotients x v ops _ _ y w ops' =>
      obtain ⟨v', hv', hx, hv, hv0⟩ := ha.quotient
      obtain ⟨rfl, rfl⟩ := List.cons.inj hv'
      obtain ⟨w', hw', hy, hw, hw0⟩ := hb.quotient
      obtain ⟨rfl, rfl⟩ := List.cons.inj hw'
      have hvw : ∀ e ∈ [v, w], R.Fine I S e := by simpa using ⟨hv, hw⟩
      refine (gives_mulOf hc hk hvw).bind fun r k' hk' hr hrd hrv => ?_
      have hr0 : r.value I ≠ 0 := by simpa [hrv] using ⟨hv0, hw0⟩
      refine ((gives_distribute2 hc hE hk' hx hy).divOf hc ⟨hr, hrd⟩ hr0).of_eq ?_
      simp [hrv, div_mul_div_comm]
  | ofQuotient x =>
      obtain ⟨v, rfl, hx, hv, hv0⟩ := ha.quotient
      refine ((gives_distribute2 hc hE hk hx hb).divOf hc hv hv0).of_eq ?_
      rw [Expr.value_quotient, div_mul_eq_mul_div]
  | byQuotient _ y =>
      obtain ⟨w, rfl, hy, hw, hw0⟩ := hb.quotient
      refine ((gives_distribute2 hc hE hk ha hy).divOf hc hw hw0).of_eq ?_
      rw [Expr.value_quotient, mul_div_assoc]
  | ofSum =>
      refine ((givesAll_distributeLeft hc hE hk ha.operand hb).addOf hc hE).of_eq ?_
      rw [Expr.value_sum, List.sum_map_mul_right]
  | bySum =>
      refine ((givesAll_distributeRight hc hE hk ha hb.operand).addOf hc hE).of_eq ?_
      rw [Expr.value_sum, List.sum_map_mul_left]
  | lacking h => simp [ha.defined.lacksOperand, hb.defined.lacksOperand] at h
  | plain =>
      have hab : ∀ e ∈ [a, b], R.Fine I S e := by simpa using ⟨ha, hb⟩
      exact (gives_mulOf hc hk hab).of_eq (by simp)
termination_by sizeOf a + sizeOf b

theorem givesAll_distributeLeft [CharZero K] (hc : R.Canonical) (hE : R.Safe I S E)
    {es : List Expr} {b : Expr} {k : Kernel} (hk : R.Holds k) (hes : ∀ e ∈ es, R.Fine I S e)
    (hb : R.Fine I S b) :
    R.GivesAll I S E (distributeLeft es b) k (es.map fun e => e.value I * b.value I) := by
  match es, hes with
  | [], _ =>
      rw [distributeLeft]
      exact givesAll_nil hk
  | e :: rest, hes =>
      rw [List.forall_mem_cons] at hes
      rw [distributeLeft]
      exact .cons (gives_distribute2 hc hE hk hes.1 hb) fun k' hk' =>
        givesAll_distributeLeft hc hE hk' hes.2 hb
termination_by sizeOf es + sizeOf b

theorem givesAll_distributeRight [CharZero K] (hc : R.Canonical) (hE : R.Safe I S E) {a : Expr}
    {es : List Expr} {k : Kernel} (hk : R.Holds k) (ha : R.Fine I S a)
    (hes : ∀ e ∈ es, R.Fine I S e) :
    R.GivesAll I S E (distributeRight a es) k (es.map fun e => a.value I * e.value I) := by
  match es, hes with
  | [], _ =>
      rw [distributeRight]
      exact givesAll_nil hk
  | e :: rest, hes =>
      rw [List.forall_mem_cons] at hes
      rw [distributeRight]
      exact .cons (gives_distribute2 hc hE hk ha hes.1) fun k' hk' =>
        givesAll_distributeRight hc hE hk' ha hes.2
termination_by sizeOf a + sizeOf es

end

/-- **Distributing a product has the product of the values.** -/
theorem gives_distributeProduct [CharZero K] (hc : R.Canonical) (hE : R.Safe I S E) :
    ∀ {es : List Expr} {k : Kernel}, R.Holds k → es ≠ [] → (∀ e ∈ es, R.Fine I S e) →
      R.Gives I S E (distributeProduct es) k (es.map (Expr.value I)).prod
  | [], _, _, hne, _ => absurd rfl hne
  | [a], _, hk, _, hes => by
      have ha := hes a (by simp)
      exact gives_pure hk ha.good ha.defined (by simp)
  | a :: b :: rest, _, hk, _, hes => by
      rw [List.forall_mem_cons] at hes
      refine (gives_distributeProduct hc hE hk (by simp) hes.2).bind fun r k' hk' hr hrd hrv => ?_
      refine (gives_distribute2 hc hE hk' hes.1 ⟨hr, hrd⟩).of_eq ?_
      rw [hrv, ← List.prod_cons, ← List.map_cons]

/-! ## Powers of sums -/

/-- A factor of a term. -/
def termPower (e : Expr) (n : Nat) : Action Expr :=
  if n = 1 then pure e else do powOf e (← makeNumber (.ofInt n))

theorem termFactors_cons {e : Expr} {es : List Expr} {n : Nat} {ks : List Nat} (hn : n ≠ 0) :
    termFactors (e :: es) (n :: ks) = (do
      let p ← termPower e n
      return p :: (← termFactors es ks)) := by
  rw [termFactors, if_neg hn, termPower]
  split <;> simp

theorem gives_termPower [CharZero K] (hc : R.Canonical) (hE : R.Safe I S E) {e : Expr} {n : Nat}
    (hk : R.Holds k) (he : R.Fine I S e) : R.Gives I S E (termPower e n) k (e.value I ^ n) := by
  rw [termPower]
  split
  next hn => exact gives_pure hk he.good he.defined (by rw [hn, pow_one])
  next =>
    refine (yields_makeNumber hk (Number.isProper_ofInt n)).bind fun r k' h => ?_
    obtain ⟨hk', rfl⟩ := h
    exact gives_powOf hc hk' hE he

theorem yields_termFactors [CharZero K] (hc : R.Canonical) (hE : R.Safe I S E) :
    ∀ {es : List Expr} (ks : List Nat) {k : Kernel}, R.Holds k → (∀ e ∈ es, R.Fine I S e) →
      Yields E (termFactors es ks) k fun rs k' => R.Holds k' ∧ (∀ e ∈ rs, R.Fine I S e) ∧
        (rs.map (Expr.value I)).prod =
          (List.zipWith (· ^ ·) (es.map (Expr.value I)) ks).prod
  | [], _, _, hk, _ => Yields.pure ⟨hk, by simp, by simp⟩
  | e :: es, [], _, hk, _ => Yields.pure ⟨hk, by simp, by simp⟩
  | e :: es, n :: ks, k, hk, hes => by
      rw [List.forall_mem_cons] at hes
      by_cases hn : n = 0
      · rw [termFactors, if_pos hn]
        refine (yields_termFactors hc hE ks hk hes.2).mono fun rs k' h => ⟨h.1, h.2.1, ?_⟩
        rw [h.2.2, hn]
        simp
      · rw [termFactors_cons hn]
        refine Yields.bind (gives_termPower hc hE hk hes.1) fun r k₁ hr => ?_
        refine (yields_termFactors hc hE ks hr.1 hes.2).bind fun rs k₂ hrs => ?_
        refine Yields.pure ⟨hrs.1, List.forall_mem_cons.2 ⟨⟨hr.2.1, hr.2.2.1⟩, hrs.2.1⟩, ?_⟩
        rw [List.map_cons, List.prod_cons, hr.2.2.2, hrs.2.2, List.map_cons, List.zipWith_cons_cons,
          List.prod_cons]

/-- **Each composition gives its term of the multinomial theorem.** -/
theorem givesAll_multinomialTerms [CharZero K] (hc : R.Canonical) (hE : R.Safe I S E)
    {terms : List Expr} {n : Nat} (hterms : ∀ e ∈ terms, R.Fine I S e) :
    ∀ {kss : List (List Nat)} {rows : Pascal} {k : Kernel}, R.Holds k → rows.IsTriangle →
      (∀ ks ∈ kss, ks.sum = n) →
      R.GivesAll I S E (multinomialTerms terms kss rows) k
        (kss.map (multinomialTerm n (terms.map (Expr.value I))))
  | [], _, _, hk, _, _ => givesAll_nil hk
  | ks :: kss, rows, k, hk, hrows, hsum => by
      rw [List.forall_mem_cons] at hsum
      obtain ⟨rows', hm, hrows'⟩ := hrows.multinomial_eq ks
      rw [multinomialTerms, hm]
      refine Yields.bind (P := fun c k' => c = (Pascal.splits ks.sum ks, rows') ∧ R.Holds k')
        ⟨rfl, hk⟩ ?_
      rintro _ k ⟨rfl, hk⟩
      refine (yields_makeNumber hk (Number.isProper_ofInt _)).bind fun r k h => ?_
      obtain ⟨hk, rfl⟩ := h
      refine (yields_termFactors hc hE ks hk hterms).bind fun rs k hrs => ?_
      have hcoefficient : R.Fine I S (.number (.ofInt (Pascal.splits ks.sum ks))) :=
        ⟨R.good_number (Number.isProper_ofInt _), .ofInt _⟩
      refine GivesAll.cons ((gives_mulOf hc hrs.1
        (List.forall_mem_cons.2 ⟨hcoefficient, hrs.2.1⟩)).of_eq ?_) fun k' hk' =>
          givesAll_multinomialTerms hc hE hterms hk' hrows' hsum.2
      rw [List.map_cons, List.prod_cons, hrs.2.2, multinomialTerm, hsum.1]
      simp

/-- The operation ends with no expression or with one of value `x`, or with a fault in `E`. -/
def GivesOption (R : Realm) (I : Interpretation K) (S : Shape) (E : Fault → Prop)
    (a : Action (Option Expr)) (k : Kernel) (x : K) : Prop :=
  Yields E a k fun o k' => R.Holds k' ∧ ∀ r, o = some r → R.Fine I S r ∧ r.value I = x

theorem givesOption_none {x : K} (hk : R.Holds k) : R.GivesOption I S E (pure none) k x :=
  Yields.pure ⟨hk, by simp⟩

theorem Gives.some {a : Action Expr} {x : K} (h : R.Gives I S E a k x) :
    R.GivesOption I S E (do return Option.some (← a)) k x :=
  Yields.bind h fun _ _ hr => Yields.pure
    ⟨hr.1, fun _ ho => Option.some.inj ho ▸ ⟨⟨hr.2.1, hr.2.2.1⟩, hr.2.2.2⟩⟩

/-- What an operation may give, changed. -/
theorem GivesOption.map {a : Action (Option Expr)} {f : Expr → Action Expr} {x y : K}
    (h : R.GivesOption I S E a k x)
    (hf : ∀ r k, R.Holds k → R.Fine I S r → r.value I = x → R.Gives I S E (f r) k y) :
    R.GivesOption I S E (do
      match ← a with
      | none => return none
      | some r => return Option.some (← f r)) k y := by
  refine Yields.bind h fun o k' ho => ?_
  cases o with
  | none => exact givesOption_none ho.1
  | some r => exact (hf r k' ho.1 (ho.2 r rfl).1 (ho.2 r rfl).2).some

theorem Fine.ne_nil (hS : S.Expandable) {f : String} {ops : List Expr} {d : Option Nat} {c : Bool}
    (h : R.Fine I S (.application f ops d c)) (hf : f = "Add" ∨ f = "Multiply") : ops ≠ [] := by
  rcases h.defined.application_cases with ⟨-, hA⟩ | ⟨rfl, -⟩ | ⟨rfl, -⟩ | ⟨rfl, -⟩
  · exact hS.filled hA hf
  · exact absurd hf (by decide)
  · exact absurd hf (by decide)
  · exact absurd hf (by decide)

theorem Fine.noRelation (hS : S.Expandable) {f : String} {ops : List Expr} {d : Option Nat}
    {c : Bool} (h : R.Fine I S (.application f ops d c)) : Relation.ofOperator? f = none := by
  rcases h.defined.application_cases with ⟨-, hA⟩ | ⟨rfl, -⟩ | ⟨rfl, -⟩ | ⟨rfl, -⟩
  · exact hS.noRelation hA
  · decide
  · decide
  · decide

/-- **The power of a sum has the power of its value.** -/
theorem givesOption_expandHighPower [CharZero K] (hc : R.Canonical) (hE : R.Safe I S E)
    (hS : S.Expandable) (n : Nat) : ∀ {e : Expr} {k : Kernel}, R.Holds k → R.Fine I S e →
      R.GivesOption I S E (expandHighPower n e) k (e.value I ^ n)
  | e, k, hk, he => by
      have h := expandsPower n e
      generalize expandHighPower n e = x at h ⊢
      cases h with
      | negation a =>
          obtain ⟨rfl, ha⟩ := he.negation
          rw [Expr.value_negation]
          refine Yields.bind (givesOption_expandHighPower hc hE hS n hk ha) fun o k' ho => ?_
          cases o with
          | none => exact givesOption_none ho.1
          | some r =>
              obtain ⟨hr, hrv⟩ := ho.2 r rfl
              dsimp only
              split
              next heven =>
                refine (gives_pure ho.1 hr.good hr.defined ?_).some
                rw [hrv, (Nat.even_iff.2 heven).neg_pow]
              next hodd =>
                refine ((gives_negOf hc ho.1 hE hr).of_eq ?_).some
                rw [hrv, (Nat.odd_iff.2 (by omega)).neg_pow]
      | sum ops _ _ hne =>
          have hsum : ∀ ks ∈ compositions ops.length n, ks.sum = n := by
            obtain ⟨m, hm⟩ := Nat.exists_eq_succ_of_ne_zero (mt List.length_eq_zero_iff.1 hne)
            rw [hm]
            exact fun ks hks => (mem_compositions hks).2
          rw [← bind_assoc]
          refine (((givesAll_multinomialTerms hc hE he.operand hk Pascal.isTriangle_initial
            hsum).addOf hc hE).of_eq ?_).some
          rw [Expr.value_sum, sum_pow n _ (by simpa using hne), List.length_map]
      | emptySum => exact absurd rfl (he.ne_nil hS (.inl rfl))
      | lacking h => simp [he.defined.lacksOperand] at h
      | other => exact givesOption_none hk

/-- The power with the exponent's absolute value. -/
def expandMagnitude (expandBase : Action (Option Expr)) (base : Expr) (n : Int) :
    Action (Option Expr) :=
  if n.natAbs = 1 then expandBase else expandHighPower n.natAbs base

/-- A power, inverted if the exponent is negative. -/
def expandSign (n : Int) (r : Option Expr) : Action (Option Expr) :=
  if 0 < n then return r
  else
    match r with
    | none => return none
    | some e => do return some (← invOf e)

theorem expandPowerWith_eq {expandBase : Action (Option Expr)} {base : Expr} {n : Int}
    (hn : n ≠ 0) :
    expandPowerWith expandBase base n =
      expandMagnitude expandBase base n >>= expandSign n := by
  rw [expandPowerWith, if_neg hn, expandMagnitude]
  by_cases h1 : n.natAbs = 1
  · simp only [h1, if_true]
    rfl
  · simp only [h1, if_false]
    rfl

theorem givesOption_expandPowerWith [CharZero K] (hc : R.Canonical) (hE : R.Safe I S E)
    (hS : S.Expandable) {expandBase : Action (Option Expr)} {base : Expr} {n : Int}
    (hk : R.Holds k) (hb : R.Fine I S base) (hne : n < 0 → base.value I ≠ 0)
    (hbase : R.GivesOption I S E expandBase k (base.value I)) :
    R.GivesOption I S E (expandPowerWith expandBase base n) k (base.value I ^ n) := by
  by_cases h0 : n = 0
  · subst h0
    exact ((gives_one hk).of_eq (zpow_zero _).symm).some
  have hmagnitude : R.GivesOption I S E (expandMagnitude expandBase base n) k
      (base.value I ^ n.natAbs) := by
    rw [expandMagnitude]
    split
    next h1 => rwa [h1, pow_one]
    next => exact givesOption_expandHighPower hc hE hS n.natAbs hk hb
  rw [expandPowerWith_eq h0]
  by_cases hpos : 0 < n
  · have hvalue : base.value I ^ n.natAbs = base.value I ^ n := by
      rw [← zpow_natCast, Int.natAbs_of_nonneg hpos.le]
    have hsign : expandSign n = pure := funext fun r => if_pos hpos
    rw [hsign, bind_pure]
    rwa [hvalue] at hmagnitude
  · have hvalue : (base.value I ^ n.natAbs)⁻¹ = base.value I ^ n := by
      rw [← zpow_natCast, ← zpow_neg, Int.ofNat_natAbs_of_nonpos (by omega), neg_neg]
    have hsign : expandSign n = fun r => match r with
        | none => return none
        | some e => do return some (← invOf e) := funext fun r => if_neg hpos
    rw [hsign]
    refine hmagnitude.map fun r k' hk' hr hrv => ?_
    have hr0 : r.value I ≠ 0 := by
      rw [hrv]
      exact pow_ne_zero _ (hne (by omega))
    exact (gives_invOf hc hk' hE hr hr0).of_eq (by rw [hrv, hvalue])

/-! ## Expansion -/

theorem givesAll_mapM_divOf [CharZero K] (hc : R.Canonical) {b : Expr} (hb : R.Fine I S b)
    (hb0 : b.value I ≠ 0) : ∀ {es : List Expr} {k : Kernel}, R.Holds k → (∀ e ∈ es, R.Fine I S e) →
      R.GivesAll I S E (es.mapM fun x => do divOf x (← givenOperand (some b))) k
        (es.map fun e => e.value I / b.value I)
  | [], _, hk, _ => givesAll_nil hk
  | e :: rest, _, hk, hes => by
      rw [List.forall_mem_cons] at hes
      rw [List.mapM_cons]
      exact .cons (gives_divOf hc hk hes.1 hb hb0) fun k' hk' =>
        givesAll_mapM_divOf hc hb hb0 hk' hes.2

/-- A quotient of an expanded numerator. -/
theorem gives_splitQuotient [CharZero K] (hc : R.Canonical) (hE : R.Safe I S E) {a b : Expr}
    (hk : R.Holds k) (ha : R.Fine I S a) (hb : R.Fine I S b) (hb0 : b.value I ≠ 0) :
    R.Gives I S E (splitQuotient a (some b)) k (a.value I / b.value I) := by
  rw [splitQuotient]
  split
  next hadd =>
    cases a with
    | application f ops d c =>
        obtain rfl : f = "Add" := by simpa [Expr.isApplicationOf] using hadd
        refine ((givesAll_mapM_divOf hc hb hb0 hk ha.operand).addOf hc hE).of_eq ?_
        rw [Expr.value_sum]
        simp only [div_eq_mul_inv, List.sum_map_mul_right]
    | _ => cases hadd
  next => exact gives_divOf hc hk ha hb hb0

@[simp] theorem asInteger?_ofInt (n : Int) : asInteger? (.number (.ofInt n)) = some n := by
  simp [asInteger?, Number.ofInt, Scalar.ofInt, Scalar.isFinite, Scalar.isInteger, Scalar.toRat]

/-- What is expanded, or the expression itself. -/
theorem GivesOption.getD {a : Action (Option Expr)} {e : Expr} (he : R.Fine I S e)
    (h : R.GivesOption I S E a k (e.value I)) :
    R.Gives I S E (do return (← a).getD e) k (e.value I) := by
  refine Yields.bind h fun o k' ho => ?_
  cases o with
  | none => exact gives_pure ho.1 he.good he.defined rfl
  | some r => exact gives_pure ho.1 (ho.2 r rfl).1.good (ho.2 r rfl).1.defined (ho.2 r rfl).2

mutual

/-- **An expansion has the value of the expression.** -/
theorem givesOption_expand? [CharZero K] (hc : R.Canonical) (hE : R.Safe I S E)
    (hS : S.Expandable) : ∀ {e : Expr} {k : Kernel}, R.Holds k → R.Fine I S e →
      R.GivesOption I S E (expand? e) k (e.value I)
  | e, k, hk, he => by
      have h := expands e
      generalize expand? e = x at h ⊢
      cases h with
      | relation _ _ _ h => simp [he.noRelation hS] at h
      | quotient a =>
          obtain ⟨b, rfl, ha, hb, hb0⟩ := he.quotient
          rw [Expr.value_quotient]
          refine (givesOption_expand? hc hE hS hk ha).map fun r k' hk' hr hrv => ?_
          exact (gives_splitQuotient hc hE hk' hr hb hb0).of_eq (by rw [hrv])
      | product =>
          refine ((gives_distributeProduct hc hE hk (he.ne_nil hS (.inr rfl)) he.operand).of_eq
            ?_).some
          rw [Expr.value_product]
      | sum =>
          rw [← bind_assoc, Expr.value_sum]
          exact ((givesAll_expandEach hc hE hS hk he.operand).addOf hc hE).some
      | negation a =>
          obtain ⟨rfl, ha⟩ := he.negation
          rw [Expr.value_negation]
          refine (givesOption_expand? hc hE hS hk ha).map fun r k' hk' hr hrv => ?_
          exact (gives_negOf hc hk' hE hr).of_eq (by rw [hrv])
      | power base exponent rest _ _ hn =>
          obtain ⟨b, n, hops, hb0, -⟩ := he.defined.power_inv
          obtain ⟨rfl, rfl, rfl⟩ : base = b ∧ exponent = .number (.ofInt n) ∧ rest = [] := by
            simpa using hops
          obtain rfl := Option.some.inj ((asInteger?_ofInt n).symm.trans hn)
          have hb := he.operand base (by simp)
          rw [Expr.value_power]
          exact givesOption_expandPowerWith hc hE hS hk hb hb0 (givesOption_expand? hc hE hS hk hb)
      | lacking h => simp [he.defined.lacksOperand] at h
      | number | symbol | error | brokenPower | empty | other => exact givesOption_none hk

theorem givesAll_expandEach [CharZero K] (hc : R.Canonical) (hE : R.Safe I S E)
    (hS : S.Expandable) : ∀ {es : List Expr} {k : Kernel}, R.Holds k → (∀ e ∈ es, R.Fine I S e) →
      R.GivesAll I S E (expandEach es) k (es.map (Expr.value I))
  | [], _, hk, _ => givesAll_nil hk
  | e :: rest, _, hk, hes => by
      rw [List.forall_mem_cons] at hes
      have hcons := GivesAll.cons ((givesOption_expand? hc hE hS hk hes.1).getD hes.1)
        fun k' hk' => givesAll_expandEach hc hE hS hk' hes.2
      rw [expandEach, List.map_cons]
      simpa only [bind_assoc, pure_bind] using hcons

end

end Realm

end Kernel

end SymbolicAlgebra
