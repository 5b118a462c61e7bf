import SymbolicAlgebra.Proofs.Building
import SymbolicAlgebra.Proofs.Quotients
import SymbolicAlgebra.Proofs.Standard

/-!
# Proofs/Termination — where expansion has an end

Distribution goes down to an operand list of length one and powers of sums to a single part, so
both run without end on nothing: a product without factors, a power of a sum without terms.
`expansion_ends` says that this is all: each recursion of expansion has an end unless it comes to
such a place, and where it does it never gives a result (`expand_emptyProduct`).
-/

namespace SymbolicAlgebra

namespace Expr

/-- Whether expanding a power of `base` runs without end. -/
def stallsAt (base : Expr) (n : Int) : Bool :=
  if n = 0 then false else if n.natAbs = 1 then stalls base else isEmptySum base

theorem powerStalls_cons (base exponent : Expr) (rest : List Expr) :
    powerStalls (base :: exponent :: rest) =
      match Kernel.asInteger? exponent with
      | none => false
      | some n => base.stallsAt n := by
  rw [powerStalls]
  cases Kernel.asInteger? exponent <;> rfl

mutual

/-- Whether distributing the operands of an expression runs without end. -/
def distributionStalls : Expr → Bool
  | application f ops _ _ =>
      if f == "Multiply" then ops.isEmpty
      else if f == "Divide" then firstDistributionStalls ops
      else f == "Power" && powerStalls ops
  | _ => false

def firstDistributionStalls : List Expr → Bool
  | a :: _ => distributionStalls a
  | [] => false

end

mutual

theorem counts_any : ∀ e : Expr, e.counts (fun _ _ => true) = true
  | number _ => rfl
  | symbol _ _ _ => rfl
  | error _ _ _ => rfl
  | application _ ops _ _ => allCount_any ops

theorem allCount_any : ∀ es : List Expr, allCount (fun _ _ => true) es = true
  | [] => rfl
  | e :: rest => by rw [allCount, counts_any e, allCount_any rest]; rfl

end

/-! ## Filled expressions -/

mutual

theorem isEmptySum_of_isFilled : ∀ {e : Expr}, e.isFilled = true → e.isEmptySum = false
  | number _, _ => rfl
  | symbol _ _ _, _ => rfl
  | error _ _ _, _ => rfl
  | application f ops d c, he => by
      obtain ⟨hf, hops⟩ := counts_application.1 he
      rw [isFilledWith_eq_true] at hf
      rw [isEmptySum]
      split
      next => exact firstIsEmptySum_of_isFilled hops
      next =>
        rw [Bool.and_eq_false_iff]
        by_cases hadd : f = "Add"
        · exact .inr (by simpa using hf.2 (.inl hadd))
        · exact .inl (by simpa using hadd)

theorem firstIsEmptySum_of_isFilled : ∀ {es : List Expr}, (∀ e ∈ es, e.isFilled = true) →
    firstIsEmptySum es = false
  | [], _ => rfl
  | a :: _, h => isEmptySum_of_isFilled (h a (by simp))

end

mutual

/-- Expansion has an end where sums and products are not empty. -/
theorem stalls_of_isFilled : ∀ {e : Expr}, e.isFilled = true → e.stalls = false
  | number _, _ => rfl
  | symbol _ _ _, _ => rfl
  | error _ _ _, _ => rfl
  | application f ops d c, he => by
      obtain ⟨hf, hops⟩ := counts_application.1 he
      rw [isFilledWith_eq_true] at hf
      rw [stalls]
      split
      next => exact anyStalls_of_isFilled hops
      next =>
        split
        next => exact firstStalls_of_isFilled hops
        next =>
          split
          next hmul => simpa using hf.2 (.inr (by simpa using hmul))
          next => rw [powerStalls_of_isFilled hops, Bool.and_false]

theorem anyStalls_of_isFilled : ∀ {es : List Expr}, (∀ e ∈ es, e.isFilled = true) →
    anyStalls es = false
  | [], _ => rfl
  | e :: rest, h => by
      rw [List.forall_mem_cons] at h
      rw [anyStalls, stalls_of_isFilled h.1, anyStalls_of_isFilled h.2]
      rfl

theorem firstStalls_of_isFilled : ∀ {es : List Expr}, (∀ e ∈ es, e.isFilled = true) →
    firstStalls es = false
  | [], _ => rfl
  | a :: _, h => stalls_of_isFilled (h a (by simp))

theorem powerStalls_of_isFilled : ∀ {es : List Expr}, (∀ e ∈ es, e.isFilled = true) →
    powerStalls es = false
  | [], _ => rfl
  | [_], _ => rfl
  | base :: exponent :: _, h => by
      have hb := h base (by simp)
      rw [powerStalls]
      split
      next => rfl
      next => simp [stalls_of_isFilled hb, isEmptySum_of_isFilled hb]

end

end Expr

namespace Kernel

theorem countable_any : Countable fun _ _ => true where
  arithmetic := fun _ _ => rfl
  relation := fun _ => rfl
  form := fun _ => rfl
  mono := fun _ _ => rfl
  flatten := fun _ _ _ => rfl

variable {α β : Type} {k : Kernel}

/-! ## Running without end -/

/-- The action runs without end. -/
def Diverges (x : Action α) (k : Kernel) : Prop := (x.run.run k).1 = .error .unbounded

/-- The action gives a result. -/
def Returns (x : Action α) (k : Kernel) : Prop := ∃ a k', x.run.run k = (.ok a, k')

/-- The action has an end unless it stalls; if it does it gives no result. -/
structure EndsUnless (stalls : Bool) (x : Action α) (k : Kernel) : Prop where
  ends : stalls = false → ¬Diverges x k
  fails : stalls = true → ¬Returns x k

theorem not_diverges {x : Action α} {P : α → Kernel → Prop} (h : Yields Bounded x k P) :
    ¬Diverges x k := by
  intro hd
  unfold Diverges at hd
  rcases hr : x.run.run k with ⟨f | a, k'⟩
  · rw [hr] at hd
    cases hd
    exact h.of_fault hr rfl
  · rw [hr] at hd
    cases hd

/-- The action gives no result. -/
def Fails (x : Action α) (k : Kernel) : Prop := Yields Anyhow x k fun _ _ => False

theorem Fails.not_returns {x : Action α} (h : Fails x k) : ¬Returns x k :=
  fun ⟨_, _, hr⟩ => h.of_run hr

theorem Fails.bind {x : Action α} {f : α → Action β} (h : Fails x k) : Fails (x >>= f) k :=
  Yields.bind h fun _ _ h => h.elim

theorem fails_throw {f : Fault} : Fails (throw f : Action α) k := trivial

/-- Whatever comes first, what comes then gives no result. -/
theorem Fails.of_then {x : Action α} {f : α → Action β} (h : ∀ a k', Fails (f a) k') :
    Fails (x >>= f) k := (anyhow x).bind fun a k' _ => h a k'

theorem fails_expandHighPower {n : Nat} : ∀ {e : Expr} {k : Kernel}, e.isEmptySum = true →
    Fails (expandHighPower n e) k
  | e, k, he => by
      have h := expandsPower n e
      generalize expandHighPower n e = x at h ⊢
      cases h with
      | negation a => exact (fails_expandHighPower (e := a) he).bind
      | sum _ _ _ hne => exact absurd (List.isEmpty_iff.1 he) hne
      | emptySum => exact fails_throw
      | lacking => exact fails_throw
      | other hnegation hsum =>
          cases e with
          | application f ops d c =>
              simp only [Expr.isApplicationOf] at hnegation hsum
              simp [Expr.isEmptySum, hnegation, hsum] at he
          | _ => cases he

theorem fails_expandPowerWith {expandBase : Action (Option Expr)} {base : Expr} {n : Int}
    (hn : n ≠ 0) (hbase : n.natAbs = 1 → Fails expandBase k)
    (hempty : n.natAbs ≠ 1 → base.isEmptySum = true) :
    Fails (expandPowerWith expandBase base n) k := by
  rw [Realm.expandPowerWith_eq hn]
  refine Fails.bind ?_
  rw [Realm.expandMagnitude]
  split
  next h1 => exact hbase h1
  next h1 => exact fails_expandHighPower (hempty h1)

mutual

/-- **Where expansion stalls it gives no result.** -/
theorem fails_expand? : ∀ {e : Expr} {k : Kernel}, e.stalls = true → Fails (expand? e) k
  | e, k, he => by
      have h := expands e
      generalize expand? e = x at h ⊢
      cases h with
      | relation _ _ _ hrelation =>
          rw [Expr.stalls_relation hrelation] at he
          exact (fails_expandEach he).bind
      | quotient a => exact (fails_expand? (e := a) he).bind
      | product =>
          obtain rfl := List.isEmpty_iff.1 he
          exact Fails.bind fails_throw
      | sum => exact (fails_expandEach he).bind
      | negation a => exact (fails_expand? (e := a) he).bind
      | @power base exponent rest _ _ n hn =>
          have hpower : base.stallsAt n = true := by
            have h : Expr.powerStalls (base :: exponent :: rest) = true := he
            rwa [Expr.powerStalls_cons, hn] at h
          have h0 : n ≠ 0 := by
            rintro rfl
            simp [Expr.stallsAt] at hpower
          rw [Expr.stallsAt, if_neg h0] at hpower
          refine fails_expandPowerWith h0 (fun h1 => ?_) fun h1 => ?_
          · exact fails_expand? (by simpa [h1] using hpower)
          · simpa [h1] using hpower
      | brokenPower base exponent rest _ _ hn =>
          have hpower : Expr.powerStalls (base :: exponent :: rest) = true := he
          rw [Expr.powerStalls_cons, hn] at hpower
          cases hpower
      | empty _ _ hf => obtain rfl | rfl := hf <;> cases he
      | lacking => exact fails_throw
      | other _ _ _ hrelation hf =>
          simp only [List.mem_cons, not_or] at hf
          simp [Expr.stalls, hrelation, hf] at he
      | number | symbol | error => cases he

theorem fails_expandEach : ∀ {es : List Expr} {k : Kernel}, Expr.anyStalls es = true →
    Fails (expandEach es) k
  | [], _, h => by cases h
  | e :: rest, k, h => by
      rw [Expr.anyStalls, Bool.or_eq_true] at h
      unfold expandEach
      rcases h with h | h
      · exact (fails_expand? h).bind
      · exact Fails.of_then fun o k' => (fails_expandEach h).bind

end

/-! ## Having an end -/

theorem endsUnless_of_yields {x : Action α} {stalls : Bool} {P : α → Kernel → Prop}
    (hends : stalls = false → Yields Bounded x k P) (hfails : stalls = true → Fails x k) :
    EndsUnless stalls x k :=
  ⟨fun h => not_diverges (hends h), fun h => (hfails h).not_returns⟩

section All

/-- The family of all expressions. -/
abbrev allExpressions : Family := .counting countable_any

theorem expandable_all : allExpressions.Expandable := Family.expandable_counting countable_any

theorem bounded_distribute2 (a b : Expr) : Yields Bounded (distribute2 a b) k fun _ _ => True :=
  (Family.reports_distribute2 expandable_all trivial (Expr.counts_any a) (Expr.counts_any b)).mono
    fun _ _ _ => trivial

theorem bounded_expand? {e : Expr} (h : e.stalls = false) :
    Yields Bounded (expand? e) k fun _ _ => True := by
  have hstall : e.stalls = true → Bounded .unbounded := fun h' => by
    rw [h] at h'
    cases h'
  exact (Family.reports_expand? expandable_all (fun _ h => h) trivial (Expr.counts_any e)
    hstall).mono fun _ _ _ => trivial

theorem bounded_expandPower? {base : Expr} {n : Int} (h : base.stallsAt n = false) :
    Yields Bounded (expandPower? base n) k fun _ _ => True := by
  rw [Expr.stallsAt] at h
  refine (Family.reportsOption_expandPowerWith expandable_all (C := base.hides = false)
    (fun _ h => h) (.inl inferInstance) trivial (Expr.counts_any base) (fun h1 => ?_) fun h0 h1 he => ?_).mono
    fun _ _ _ => trivial
  · have hstall : base.stalls = true → Bounded .unbounded := fun hs => by
      simp [h1, hs, show n ≠ 0 by omega] at h
    exact Family.reports_expand? expandable_all (fun _ h => h) trivial (Expr.counts_any base) hstall
  · simp [h0, h1, he] at h

theorem fails_expandPower? {base : Expr} {n : Int} (h : base.stallsAt n = true) :
    Fails (expandPower? base n) k := by
  rw [Expr.stallsAt] at h
  have h0 : n ≠ 0 := by
    rintro rfl
    simp at h
  refine fails_expandPowerWith h0 (fun h1 => ?_) fun h1 => ?_
  · exact fails_expand? (by simpa [h0, h1] using h)
  · simpa [h0, h1] using h

theorem bounded_distributeProduct {es : List Expr} (h : es ≠ []) :
    Yields Bounded (distributeProduct es) k fun _ _ => True :=
  (Family.reports_distributeProduct expandable_all (fun _ h => h) trivial
    (fun e _ => Expr.counts_any e) fun h' => absurd h' h).mono fun _ _ _ => trivial

theorem bounded_divOf (a b : Expr) : Yields Bounded (divOf a b) k fun _ _ => True :=
  (Family.reports_divOf expandable_all trivial (Expr.counts_any a) (Expr.counts_any b)).mono
    fun _ _ _ => trivial

mutual

theorem bounded_distribute? : ∀ {f : String} {ops : List Expr} {d : Option Nat} {c : Bool}
    {k : Kernel}, (Expr.application f ops d c).distributionStalls = false →
      Yields Bounded (distribute? f ops) k fun _ _ => True
  | f, ops, d, c, k, hstall => by
      have h := distributesOperands f ops
      generalize distribute? f ops = x at h ⊢
      cases h with
      | emptyProduct => cases hstall
      | product => exact (bounded_distributeProduct (by simp)).bind fun _ _ _ => trivial
      | negation =>
          refine Yields.bind (P := fun _ _ => True) ?_ fun m k' _ => ?_
          · exact Kernel.yields_intern (fun _ _ _ => trivial) trivial
          · exact (bounded_distributeProduct (by simp)).bind fun _ _ _ => trivial
      | quotient a rest =>
          refine (bounded_distributeNumerator? (e := a) hstall).bind fun o k' _ => ?_
          cases o with
          | none => exact trivial
          | some r =>
              cases rest with
              | nil => exact fun h => by cases h
              | cons b rest => exact (bounded_divOf r b).bind fun _ _ _ => trivial
      | @power base exponent rest n hn =>
          refine bounded_expandPower? ?_
          have h : Expr.powerStalls (base :: exponent :: rest) = false := hstall
          rwa [Expr.powerStalls_cons, hn] at h
      | lacking => exact fun h => by cases h
      | brokenPower | other => exact trivial

theorem bounded_distributeNumerator? : ∀ {e : Expr} {k : Kernel}, e.distributionStalls = false →
    Yields Bounded (distributeNumerator? e) k fun _ _ => True
  | .number _, _, _ => trivial
  | .symbol _ _ _, _, _ => trivial
  | .error _ _ _, _, _ => trivial
  | .application f ops d c, k, h => by
      unfold distributeNumerator?
      exact bounded_distribute? h

end

mutual

theorem fails_distribute? : ∀ {f : String} {ops : List Expr} {d : Option Nat} {c : Bool}
    {k : Kernel}, (Expr.application f ops d c).distributionStalls = true →
      Fails (distribute? f ops) k
  | f, ops, d, c, k, hstall => by
      have h := distributesOperands f ops
      generalize distribute? f ops = x at h ⊢
      cases h with
      | emptyProduct => exact fails_throw
      | quotient a => exact (fails_distributeNumerator? (e := a) hstall).bind
      | @power base exponent rest n hn =>
          refine fails_expandPower? ?_
          have h : Expr.powerStalls (base :: exponent :: rest) = true := hstall
          rwa [Expr.powerStalls_cons, hn] at h
      | brokenPower base exponent rest hn =>
          have h : Expr.powerStalls (base :: exponent :: rest) = true := hstall
          rw [Expr.powerStalls_cons, hn] at h
          cases h
      | lacking => exact fails_throw
      | product | negation => cases hstall
      | other _ hf =>
          simp only [List.mem_cons, not_or] at hf
          simp [Expr.distributionStalls, hf] at hstall

theorem fails_distributeNumerator? : ∀ {e : Expr} {k : Kernel}, e.distributionStalls = true →
    Fails (distributeNumerator? e) k
  | .number _, _, h => by cases h
  | .symbol _ _ _, _, h => by cases h
  | .error _ _ _, _, h => by cases h
  | .application f ops d c, k, h => by
      unfold distributeNumerator?
      exact fails_distribute? h

end

end All

/-! ## Expansion of all parts -/

mutual

/-- **Filled expressions stay filled, and all their parts are expanded.** -/
theorem filled_expandAll? : ∀ {e : Expr} {k : Kernel}, e.isFilled = true →
    Yields Bounded (expandAll? e) k fun o _ => ∀ r, o = some r → r.isFilled = true
  | .number _, _, _ => Yields.pure (by simp)
  | .symbol _ _ _, _, _ => Yields.pure (by simp)
  | .error _ _ _, _, _ => Yields.pure (by simp)
  | .application f ops d c, k, he => by
      obtain ⟨hf, hops⟩ := Expr.counts_application.1 he
      unfold expandAll?
      refine (filled_expandAllEach hops).bind fun rs k₁ hrs => ?_
      refine (Family.counts_buildFrom countable_filled (hrs.1 ▸ hf) hrs.2).bind fun r k₂ hr => ?_
      have hstall : r.stalls = true → Bounded .unbounded := fun h => by
        rw [Expr.stalls_of_isFilled hr] at h
        cases h
      refine Yields.bind (Family.reports_expand? (Family.expandable_counting countable_filled)
        (fun _ h => h) trivial hr hstall) fun o k₃ ho => Yields.pure ?_
      rintro _ ⟨⟩
      cases o with
      | none => exact hr
      | some x => exact (ho.2 x rfl).1

theorem filled_expandAllEach : ∀ {es : List Expr} {k : Kernel}, (∀ e ∈ es, e.isFilled = true) →
    Yields Bounded (expandAllEach es) k fun rs _ =>
      es.length = rs.length ∧ ∀ e ∈ rs, e.isFilled = true
  | [], _, _ => Yields.pure ⟨rfl, by simp⟩
  | e :: rest, k, hes => by
      rw [List.forall_mem_cons] at hes
      unfold expandAllEach
      refine (filled_expandAll? hes.1).bind fun o k₁ ho => ?_
      refine (filled_expandAllEach hes.2).bind fun rs k₂ hrs => ?_
      refine Yields.pure ⟨by simp [hrs.1], List.forall_mem_cons.2 ⟨?_, hrs.2⟩⟩
      cases o with
      | none => exact hes.1
      | some r => exact ho r rfl

end

theorem bounded_expandAll {e : Expr} (he : e.isFilled = true) :
    Yields Bounded (expandAll e) k fun _ _ => True := by
  unfold expandAll
  refine (Family.counts_canonicalize countable_filled he).bind fun r k₁ hr => ?_
  exact (filled_expandAll? hr).bind fun _ _ _ => trivial

theorem compositionsOf_eq_unbounded (n total : Int) :
    compositionsOf n total = .error .unbounded ↔ n < 1 ∧ 0 ≤ total := by
  unfold compositionsOf
  repeat' split
  all_goals simp
  all_goals omega

/-- **Expansion has an end unless it comes to a product or a power of nothing.** -/
theorem expansion_ends (k : Kernel) :
    (∀ a b, ¬Diverges (distribute2 a b) k) ∧
    (∀ e, e.isCanonical = true → EndsUnless e.stalls (expand e) k) ∧
    (∀ e, e.isFilled = true → ¬Diverges (expandAll e) k) ∧
    (∀ f ops d c, EndsUnless (Expr.application f ops d c).distributionStalls (distribute? f ops) k) ∧
    (∀ base n, EndsUnless (base.stallsAt n) (expandPower? base n) k) ∧
    (∀ n total, compositionsOf n total = .error .unbounded ↔ n < 1 ∧ 0 ≤ total) ∧
    ∀ a b fuel, countQuotients a + countQuotients b < fuel →
      (divWithin fuel a b).run.run k = (div a b).run.run k := by
  refine ⟨fun a b => not_diverges (bounded_distribute2 a b), fun e he => ?_,
    fun e he => not_diverges (bounded_expandAll he), fun f ops d c => ?_, fun base n => ?_,
    compositionsOf_eq_unbounded, fun a b fuel h => divWithin_of_lt h (Nat.lt_succ_self _)⟩
  · rw [expand, canonicalize_of_isCanonical he, pure_bind]
    exact endsUnless_of_yields (P := fun _ _ => True)
      (fun h => (bounded_expand? h).bind fun _ _ _ => trivial) fun h => (fails_expand? h).bind
  · exact endsUnless_of_yields bounded_distribute? fails_distribute?
  · exact endsUnless_of_yields bounded_expandPower? fails_expandPower?

/-- The square of a sum, over a quotient. -/
def squareOverQuotient : Expr :=
  let sum := .application "Add" [.symbol "a" none true, .number .one] (some 6) true
  let quotient := .application "Divide" [.number .one, .symbol "b" none true] (some 10) true
  .application "Divide" [.application "Power" [sum, .number (.ofInt 2)] (some 11) true, quotient]
    (some 10) true

/-- A product of nothing, as it is built. -/
def emptyProduct : Expr := .application "Multiply" [] (some 7) true

theorem expansion_ends_standard :
    ¬Diverges (expand squareOverQuotient) standard ∧
      ¬Diverges (expandAll squareOverQuotient) standard ∧
      ¬Returns (expand emptyProduct) standard := by
  obtain ⟨-, hexpand, hall, -⟩ := expansion_ends standard
  exact ⟨(hexpand squareOverQuotient (by decide)).ends (by decide),
    hall squareOverQuotient (by decide), (hexpand emptyProduct (by decide)).fails (by decide)⟩

/-- **The product of nothing is built, is valid, and its expansion has no end.** -/
theorem expand_emptyProduct :
    ∃ e k, (box (.list [.name "Multiply"])).run.run standard = (.ok e, k) ∧ e.isValid = true ∧
      Diverges (expand e) k := by
  obtain ⟨e, k, hbox, he⟩ := run_of_any (x := box (.list [.name "Multiply"])) (k := standard)
    (p := fun e => e.isApplicationOf "Multiply" && e.operands.isEmpty && e.isCanonical)
    (by rw [standard_eq]; decide +kernel)
  refine ⟨e, k, hbox, ?_⟩
  cases e with
  | application f ops d c =>
      simp only [Expr.isApplicationOf, Expr.operands, Expr.isCanonical, Bool.and_eq_true,
        beq_iff_eq, List.isEmpty_iff] at he
      obtain ⟨⟨rfl, rfl⟩, rfl⟩ := he
      exact ⟨rfl, rfl⟩
  | _ => cases he

end Kernel

end SymbolicAlgebra
