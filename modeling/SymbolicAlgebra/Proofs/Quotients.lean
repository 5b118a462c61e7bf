import SymbolicAlgebra.Proofs.Family

/-!
# Proofs/Quotients — division unfolds each quotient once

A product holds no more quotients than its factors do (`quotients_mul`), because factors that are
collected are only counted.  So every unfolding of a nested quotient leaves fewer of them, and the
bound that `div` sets on unfoldings is never reached: more fuel changes nothing
(`divWithin_of_lt`).
-/

namespace SymbolicAlgebra.Kernel

/-! ## How many quotients there are -/

theorem countAllQuotients_append (xs ys : List Expr) :
    countAllQuotients (xs ++ ys) = countAllQuotients xs + countAllQuotients ys := by
  induction xs with
  | nil => rw [List.nil_append, countAllQuotients, Nat.zero_add]
  | cons x rest ih => rw [List.cons_append, countAllQuotients, ih, countAllQuotients, Nat.add_assoc]

theorem countAllQuotients_singleton (e : Expr) : countAllQuotients [e] = countQuotients e := rfl

theorem countQuotients_of_ne {f : String} (hf : f ≠ "Divide") (ops : List Expr) (d : Option Nat)
    (c : Bool) : countQuotients (.application f ops d c) = countAllQuotients ops := by
  rw [countQuotients, if_neg (by simpa using hf), Nat.zero_add]

theorem countQuotients_le_of_mem {e : Expr} : ∀ {es : List Expr}, e ∈ es →
    countQuotients e ≤ countAllQuotients es
  | x :: rest, h => by
      rw [countAllQuotients]
      rcases List.mem_cons.1 h with rfl | h
      · omega
      · have := countQuotients_le_of_mem h
        omega

theorem congruence_countQuotients :
    Expr.Congruence (fun e x => countQuotients x = countQuotients e)
      fun xs ys => countAllQuotients ys = countAllQuotients xs where
  number _ := rfl
  symbol := rfl
  application _ h := by rw [countQuotients, countQuotients, h]
  error _ := rfl
  nil := rfl
  cons _ hx hxs := by rw [countAllQuotients, countAllQuotients, hx, hxs]

theorem countQuotients_of_same {e x : Expr} (h : e.same x = true) :
    countQuotients x = countQuotients e :=
  congruence_countQuotients.of_same h

theorem countAllQuotients_flatten (es : List Expr) :
    countAllQuotients (Expr.flatten (some "Multiply") es) = countAllQuotients es := by
  refine Expr.flatten_invariant (P := fun _ => True) countAllQuotients_append
    (fun _ _ _ _ _ _ _ _ => trivial) (fun f ops d c hf _ => ?_) fun _ _ => trivial
  rw [countAllQuotients_singleton, countQuotients_of_ne]
  rcases Expr.isSpliced_some.1 hf with rfl | rfl <;> decide

/-! ## Collecting -/

/-- The quotients in the bases of a tally. -/
def tallyQuotients (l : Tally) : Nat := (l.map fun q => countQuotients q.1).sum

/-- The quotients in a piece. -/
def Piece.quotients : Piece → Nat
  | .power base _ => countQuotients base
  | _ => 0

/-- The quotients in pieces. -/
def quotientsOf (ps : List Piece) : Nat := (ps.map Piece.quotients).sum

theorem tallyQuotients_tally {e : Expr} {n : Number} : ∀ {l l' : Tally}, tally e n l = .ok l' →
    tallyQuotients l' ≤ tallyQuotients l + countQuotients e
  | [], l', h => by
      rw [tally] at h
      cases hs : Number.zero.add n with
      | error f => simp [hs, bind, Except.bind] at h
      | ok s =>
          rw [hs] at h
          cases h
          simp [tallyQuotients]
  | (x, m) :: rest, l', h => by
      rw [tally] at h
      split at h
      next =>
        cases hs : m.add n with
        | error f => simp [hs, bind, Except.bind] at h
        | ok s =>
            rw [hs] at h
            cases h
            simp [tallyQuotients]
      next =>
        cases hs : tally e n rest with
        | error f => simp [hs, bind, Except.bind] at h
        | ok s =>
            rw [hs] at h
            cases h
            have := tallyQuotients_tally hs
            simp only [tallyQuotients, List.map_cons, List.sum_cons] at this ⊢
            omega

mutual

theorem quotientsOf_pieces : ∀ e : Expr, quotientsOf (pieces e) ≤ countQuotients e
  | .number _ => Nat.zero_le _
  | .symbol _ _ _ => Nat.zero_le _
  | .error _ _ _ => Nat.zero_le _
  | .application f ops d c => by
      have hops := quotientsOf_piecesAll ops
      rw [pieces]
      split
      next =>
        rw [countQuotients]
        simp only [quotientsOf, List.map_cons, List.sum_cons, Piece.quotients] at hops ⊢
        omega
      next =>
        split
        next =>
          rw [countQuotients]
          omega
        next =>
          split
          next =>
            rcases ops with _ | ⟨b, _ | ⟨x, rest⟩⟩
            · exact Nat.zero_le _
            · exact Nat.zero_le _
            · cases x with
              | number v =>
                  simp only [powerPiece, quotientsOf, List.map_cons, List.map_nil, List.sum_singleton,
                    Piece.quotients, countQuotients, countAllQuotients]
                  omega
              | _ => exact le_rfl
          next => exact le_rfl

theorem quotientsOf_piecesAll : ∀ es : List Expr, quotientsOf (piecesAll es) ≤ countAllQuotients es
  | [] => le_rfl
  | e :: rest => by
      have h₁ := quotientsOf_pieces e
      have h₂ := quotientsOf_piecesAll rest
      rw [piecesAll, countAllQuotients, quotientsOf, List.map_append, List.sum_append]
      exact Nat.add_le_add h₁ h₂

end

theorem tallyQuotients_multiply {x : Piece} {p p' : Factors} (h : x.multiply p = .ok p') :
    tallyQuotients p'.powers ≤ tallyQuotients p.powers + x.quotients := by
  cases x with
  | number v =>
      rw [Piece.multiply] at h
      cases hc : liftNumber (p.coefficient.mul v) with
      | error f => simp [hc, bind, Except.bind] at h
      | ok c =>
          rw [hc] at h
          cases h
          exact Nat.le_add_right _ _
  | sign =>
      rw [Piece.multiply] at h
      cases hc : liftNumber p.coefficient.neg with
      | error f => simp [hc, bind, Except.bind] at h
      | ok c =>
          rw [hc] at h
          cases h
          exact Nat.le_add_right _ _
  | power base exponent =>
      rw [Piece.multiply, Factors.count] at h
      cases hl : tally base exponent p.powers with
      | error f => simp [hl, liftNumber, bind, Except.bind] at h
      | ok l =>
          rw [hl] at h
          cases h
          exact tallyQuotients_tally hl
  | missing => cases h

theorem tallyQuotients_multiplyAll : ∀ {ps : List Piece} {p p' : Factors},
    multiplyAll ps p = .ok p' → tallyQuotients p'.powers ≤ tallyQuotients p.powers + quotientsOf ps
  | [], p, p', h => by
      cases h
      exact Nat.le_add_right _ _
  | x :: ps, p, p', h => by
      rw [multiplyAll_cons] at h
      cases hm : x.multiply p with
      | error f => simp [hm, bind, Except.bind] at h
      | ok q =>
          rw [hm] at h
          have h₁ := tallyQuotients_multiply hm
          have h₂ := tallyQuotients_multiplyAll (p := q) h
          simp only [quotientsOf, List.map_cons, List.sum_cons] at h₂ ⊢
          omega

/-! ## Products -/

section Product

variable {k : Kernel}

theorem quotients_intern (e : Expr) :
    Yields Anyhow (intern e) k fun r _ => countQuotients r = countQuotients e :=
  yields_intern (fun _ _ h => countQuotients_of_same h) rfl

theorem quotients_makeNumber (v : Number) :
    Yields Anyhow (makeNumber v) k fun r _ => countQuotients r = 0 := quotients_intern (.number v)

theorem quotients_apply {f : String} (hf : f ≠ "Divide") (ops : List Expr) :
    Yields Anyhow (apply f ops) k fun r _ => countQuotients r = countAllQuotients ops :=
  yields_apply ((quotients_intern _).mono fun _ _ h => h.trans (countQuotients_of_ne hf ops _ _))

theorem quotients_writePower (base : Expr) (exponent : Number) :
    Yields Anyhow (writePower base exponent) k fun r _ => countQuotients r = countQuotients base := by
  unfold writePower
  split
  next => exact Yields.pure rfl
  next =>
    refine (quotients_makeNumber exponent).bind fun n k' hn => ?_
    refine (quotients_apply (by decide) _).mono fun r _ h => ?_
    rw [h, countAllQuotients, countAllQuotients_singleton, hn, Nat.add_zero]

theorem quotients_makeFactors : ∀ {powers : Tally} {c : Number} {k : Kernel},
    Yields Anyhow (makeFactors powers c) k fun r _ =>
      countAllQuotients r.2 ≤ tallyQuotients powers
  | [], c, k => Yields.pure le_rfl
  | (base, exponent) :: rest, c, k => by
      have hle : tallyQuotients rest ≤ tallyQuotients ((base, exponent) :: rest) := by
        simp [tallyQuotients]
      rw [makeFactors_cons]
      split
      next => exact quotients_makeFactors.mono fun r _ h => h.trans hle
      next =>
        refine (anyhow _).bind fun folded k₁ _ => ?_
        cases folded with
        | some v =>
            refine (anyhow _).bind fun c' k₂ _ => ?_
            exact quotients_makeFactors.mono fun r _ h => h.trans hle
        | none =>
            refine (quotients_writePower base exponent).bind fun factor k₂ hfactor => ?_
            refine quotients_makeFactors.bind fun r k₃ hr => Yields.pure ?_
            rw [countAllQuotients, hfactor]
            simp only [tallyQuotients, List.map_cons, List.sum_cons] at hr ⊢
            omega

theorem quotients_assembleProduct (c : Number) (fs : List Expr) :
    Yields Anyhow (assembleProduct c fs) k fun r _ => countQuotients r ≤ countAllQuotients fs := by
  have hnumber : Yields Anyhow (makeNumber c) k fun r _ =>
      countQuotients r ≤ countAllQuotients fs :=
    (quotients_makeNumber c).mono fun r _ h => h ▸ Nat.zero_le _
  have hsigned : ∀ {p : Expr} {k}, countQuotients p ≤ countAllQuotients fs →
      Yields Anyhow (if c.isOne then pure p else if c.isNegativeOne then apply "Negate" [p]
        else do apply "Multiply" ((← makeNumber c) :: fs)) k fun r _ =>
          countQuotients r ≤ countAllQuotients fs := by
    intro p k hp
    split
    next => exact Yields.pure hp
    next =>
      split
      next => exact (quotients_apply (by decide) [p]).mono fun r _ h => h.trans_le hp
      next =>
        refine (quotients_makeNumber c).bind fun n k' hn => ?_
        refine (quotients_apply (by decide) (n :: fs)).mono fun r _ h => ?_
        rw [h, countAllQuotients, hn, Nat.zero_add]
  unfold assembleProduct
  split
  next => exact hnumber
  next =>
    rcases fs with _ | ⟨f, _ | ⟨g, rest⟩⟩
    · exact hnumber
    · exact hsigned le_rfl
    · exact (quotients_apply (by decide) _).bind fun p k' hp => hsigned hp.le

theorem quotients_multiply (es : List Expr) :
    Yields Anyhow (mul.multiply es) k fun r _ => countQuotients r ≤ countAllQuotients es := by
  unfold mul.multiply
  rw [collectFactors_eq]
  refine Yields.bind (P := fun p _ => tallyQuotients p.powers ≤ countAllQuotients es)
    (yields_ofExcept (fun _ _ => trivial) fun p hp => ?_) fun p k₁ hp => ?_
  · have h := tallyQuotients_multiplyAll hp
    have hps := quotientsOf_piecesAll es
    have hempty : tallyQuotients ({} : Factors).powers = 0 := rfl
    omega
  refine (anyhow _).bind fun t k₂ _ => ?_
  have hsorted : tallyQuotients (sortPowers t p.powers) = tallyQuotients p.powers :=
    ((sortPowers_perm t p.powers).map _).sum_eq
  refine quotients_makeFactors.bind fun r k₃ hr => ?_
  exact (quotients_assembleProduct r.1 r.2).mono fun x _ hx =>
    hx.trans (hr.trans (hsorted.le.trans hp))

/-- **A product holds no more quotients than its factors.** -/
theorem quotients_mul (ops : List Expr) :
    Yields Anyhow (mul ops) k fun r _ => countQuotients r ≤ countAllQuotients ops := by
  rw [← countAllQuotients_flatten]
  unfold mul
  simp only
  generalize Expr.flatten (some "Multiply") ops = es
  split
  next => exact (quotients_apply (by decide) es).mono fun r _ h => h.le
  next =>
    rcases es with _ | ⟨e, _ | ⟨e', rest⟩⟩
    · exact (quotients_makeNumber _).mono fun r _ h => h.le
    · simp only
      split
      next => exact Yields.pure le_rfl
      next => exact quotients_multiply _
    · exact quotients_multiply _

end Product

/-! ## Fuel -/

/-- Two computations that go on in the same way. -/
theorem run_bind_congr {α β : Type} {x : Action α} {f g : α → Action β} {k : Kernel}
    {P : α → Kernel → Prop} (hx : Yields Anyhow x k P)
    (h : ∀ a k', P a k' → (f a).run.run k' = (g a).run.run k') :
    (x >>= f).run.run k = (x >>= g).run.run k := by
  rw [run_bind, run_bind]
  rcases hx.ok_or_fault with ⟨a, k', hr, ha⟩ | ⟨e, k', hr, -⟩
  · rw [hr]
    exact h a k' ha
  · rw [hr]

/-- **Division never uses up its fuel**: as soon as there is more of it than there are quotients, it
makes no difference how much more. -/
theorem divWithin_of_lt : ∀ {fuel fuel' : Nat} {a b : Expr} {k : Kernel},
    countQuotients a + countQuotients b < fuel → countQuotients a + countQuotients b < fuel' →
    (divWithin fuel a b).run.run k = (divWithin fuel' a b).run.run k
  | 0, _, _, _, _, h, _ => absurd h (Nat.not_lt_zero _)
  | _ + 1, 0, _, _, _, _, h => absurd h (Nat.not_lt_zero _)
  | fuel + 1, fuel' + 1, a, b, k, h, h' => by
      obtain ⟨step, heq, hstep⟩ := exists_divides a b
      rw [heq, heq]
      cases hstep with
      | ofQuotient n d rest i c =>
          simp only [countQuotients, countAllQuotients, beq_self_eq_true, if_true] at h h'
          refine run_bind_congr (quotients_mul [d, b]) fun r k₁ hr => ?_
          rw [countAllQuotients, countAllQuotients_singleton] at hr
          exact divWithin_of_lt (by omega) (by omega)
      | byQuotient _ n d rest i c =>
          simp only [countQuotients, countAllQuotients, beq_self_eq_true, if_true] at h h'
          refine run_bind_congr (quotients_mul [a, d]) fun r k₁ hr => ?_
          rw [countAllQuotients, countAllQuotients_singleton] at hr
          exact divWithin_of_lt (by omega) (by omega)
      | _ => rfl

end SymbolicAlgebra.Kernel
