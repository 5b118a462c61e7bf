import Mathlib.Algebra.BigOperators.Group.List.Basic
import Mathlib.Algebra.Ring.Prod
import Mathlib.Tactic.Ring
import SymbolicAlgebra.Proofs.NormalProduct

/-!
# Proofs/Counting — amounts by expression, in whatever order they are counted

What was counted by pure expressions is determined, up to its order, by the expressions and the total
amount of each (`IsCounted.perm`).  So pieces in another order multiply to the same coefficient and
to the same powers, in another order (`multiplyAll_perm`), which are arranged in one way: a product
does not depend on the order of its factors (`product_perm`).
-/

namespace SymbolicAlgebra.Kernel

open OrderKey

/-! ## Exact numbers as pairs -/

/-- The real and the imaginary part of an exact number. -/
def parts : Number → ℚ × ℚ
  | .real (.exact q) => (q, 0)
  | .complex (.exact x) (.exact y) => (x, y)
  | _ => 0

/-- The number with given parts. -/
def ofPair (p : ℚ × ℚ) : Number := .ofParts (.exact p.1) (.exact p.2)

/-- The product of complex numbers given by their parts. -/
def pairMul (p q : ℚ × ℚ) : ℚ × ℚ := (p.1 * q.1 - p.2 * q.2, p.1 * q.2 + p.2 * q.1)

theorem ofPair_real (q : ℚ) : ofPair (q, 0) = .ofRat q := by
  rw [ofPair, Number.ofParts, if_pos (by simp [Scalar.isZero])]
  rfl

theorem ofPair_parts {v : Number} (hv : v.isProper = true) : ofPair (parts v) = v := by
  rcases Number.exact_cases (Number.isExact_of_isProper hv) with ⟨q, rfl⟩ | ⟨x, y, rfl⟩
  · exact ofPair_real q
  · have hy : y ≠ 0 := by simpa [Number.isProper] using hv
    exact Number.ofParts_of_ne x hy

@[simp] theorem parts_ofPair (p : ℚ × ℚ) : parts (ofPair p) = p := by
  obtain ⟨x, y⟩ := p
  by_cases hy : y = 0
  · subst hy
    rw [ofPair_real]
    rfl
  · rw [ofPair, Number.ofParts_of_ne x hy]
    rfl

theorem isProper_ofPair (p : ℚ × ℚ) : (ofPair p).isProper = true := Number.isProper_ofParts _ _

/-- Proper numbers are told apart by their parts. -/
theorem eq_of_parts {v w : Number} (hv : v.isProper = true) (hw : w.isProper = true)
    (h : parts v = parts w) : v = w := by
  rw [← ofPair_parts hv, h, ofPair_parts hw]

theorem add_parts {a b : Number} (ha : a.isProper = true) (hb : b.isProper = true) :
    a.add b = .ok (ofPair (parts a + parts b)) := by
  rcases Number.exact_cases (Number.isExact_of_isProper ha) with ⟨p, rfl⟩ | ⟨x, y, rfl⟩ <;>
    rcases Number.exact_cases (Number.isExact_of_isProper hb) with ⟨q, rfl⟩ | ⟨x', y', rfl⟩
  · rw [Number.add_ofRat, ← ofPair_real]
    simp [parts, Number.ofRat]
  all_goals rfl

theorem mul_parts {a b : Number} (ha : a.isProper = true) (hb : b.isProper = true) :
    a.mul b = .ok (ofPair (pairMul (parts a) (parts b))) := by
  rcases Number.exact_cases (Number.isExact_of_isProper ha) with ⟨p, rfl⟩ | ⟨x, y, rfl⟩ <;>
    rcases Number.exact_cases (Number.isExact_of_isProper hb) with ⟨q, rfl⟩ | ⟨x', y', rfl⟩
  · rw [Number.mul_ofRat, ← ofPair_real]
    simp [pairMul, parts, Number.ofRat]
  all_goals rfl

theorem neg_parts {a : Number} (ha : a.isProper = true) : a.neg = .ok (ofPair (-parts a)) := by
  rcases Number.exact_cases (Number.isExact_of_isProper ha) with ⟨p, rfl⟩ | ⟨x, y, rfl⟩
  · rw [Number.neg_ofRat, ← ofPair_real]
    simp [parts, Number.ofRat]
  · rfl

/-! ## Counted amounts -/

/-- The total amount of an expression in a list. -/
def total (l : Tally) (x : Expr) : ℚ × ℚ := (l.map fun q => if q.1.same x then parts q.2 else 0).sum

@[simp] theorem total_nil (x : Expr) : total [] x = 0 := rfl

@[simp] theorem total_cons (q : Expr × Number) (l : Tally) (x : Expr) :
    total (q :: l) x = (if q.1.same x then parts q.2 else 0) + total l x := List.sum_cons

/-- Amounts that were counted: proper numbers, by pure expressions, each in one place. -/
structure IsCounted (l : Tally) : Prop where
  pure : ∀ q ∈ l, IsPure q.1
  proper : ∀ q ∈ l, q.2.isProper = true
  nodup : (keys l).Nodup

theorem isCounted_nil : IsCounted [] := ⟨by simp, by simp, .nil⟩

theorem IsPure.eq_of_same {x y : Expr} (hx : IsPure x) (hy : IsPure y) (h : x.same y = true) :
    x = y := by
  by_contra hne
  rw [hx.same_eq_false hy hne] at h
  cases h

/-- Counting adds to the total of what is counted. -/
theorem exists_tally {e : Expr} {n : Number} (hn : n.isProper = true) : ∀ {l : Tally},
    (∀ q ∈ l, q.2.isProper = true) → ∃ l', tally e n l = .ok l' ∧
      (∀ q ∈ l', q.2.isProper = true) ∧
      ∀ x, total l' x = total l x + if e.same x then parts n else 0
  | [], _ => by
      refine ⟨[(e, n)], tally_of_new hn (by simp), by simpa using hn, fun x => ?_⟩
      rw [total_cons, total_nil, add_comm]
  | (y, m) :: rest, hl => by
      rw [List.forall_mem_cons] at hl
      rw [tally]
      split
      next hsame =>
        rw [add_parts hl.1 hn]
        refine ⟨(y, ofPair (parts m + parts n)) :: rest, rfl, ?_, fun x => ?_⟩
        · exact List.forall_mem_cons.2 ⟨isProper_ofPair _, hl.2⟩
        · have hx : y.same x = e.same x := Bool.eq_iff_iff.2
            ⟨fun h => Expr.same_trans (Expr.same_symm hsame) h, fun h => Expr.same_trans hsame h⟩
          rw [total_cons, total_cons, hx, parts_ofPair]
          split
          next => rw [add_right_comm]
          next => rw [add_zero]
      next =>
        obtain ⟨l', hl', hproper, htotal⟩ := exists_tally hn hl.2
        refine ⟨(y, m) :: l', by rw [hl']; rfl, ?_, fun x => ?_⟩
        · exact List.forall_mem_cons.2 ⟨hl.1, hproper⟩
        · rw [total_cons, total_cons, htotal x, add_assoc]

namespace IsCounted

variable {l l' : Tally}

/-- **Counting one amount.** -/
theorem tally {e : Expr} {n : Number} (hl : IsCounted l) (he : IsPure e)
    (hn : n.isProper = true) : ∃ l', tally e n l = .ok l' ∧ IsCounted l' ∧
      (∀ x, x ∈ keys l' ↔ x ∈ keys l ∨ x = e) ∧
      ∀ x, total l' x = total l x + if e.same x then parts n else 0 := by
  obtain ⟨l', hl', hproper, htotal⟩ := exists_tally (e := e) hn hl.proper
  have hkeys : ∀ x, x ∈ keys l' ↔ x ∈ keys l ∨ x = e := by
    intro x
    rcases keys_tally hl' with ⟨⟨q, hq, hsame⟩, hk⟩ | ⟨-, hk⟩
    · have hqe := (hl.pure q hq).eq_of_same he hsame
      rw [hk, iff_self_or]
      rintro rfl
      exact hqe ▸ List.mem_map_of_mem hq
    · rw [hk, List.mem_append, List.mem_singleton]
  refine ⟨l', hl', ⟨fun q hq => ?_, hproper, nodup_tally hl.nodup hl'⟩, hkeys, htotal⟩
  rcases (hkeys q.1).1 (List.mem_map_of_mem hq) with hq | hq
  · obtain ⟨q', hq', heq⟩ := List.mem_map.1 hq
    exact heq ▸ hl.pure q' hq'
  · exact hq ▸ he

/-- Each amount is the total of its expression. -/
theorem total_eq (hl : IsCounted l) : ∀ q ∈ l, total l q.1 = parts q.2 := by
  induction l with
  | nil => simp
  | cons p rest ih =>
      obtain ⟨hpure, hproper, hnodup⟩ := hl
      rw [List.forall_mem_cons] at hpure hproper
      rw [keys, List.map_cons, List.nodup_cons] at hnodup
      have hother : ∀ q ∈ rest, p.1 ≠ q.1 := fun q hq heq =>
        hnodup.1 (heq ▸ List.mem_map_of_mem hq)
      refine List.forall_mem_cons.2 ⟨?_, fun q hq => ?_⟩
      · have hzero : total rest p.1 = 0 := by
          refine List.sum_eq_zero fun y hy => ?_
          obtain ⟨q, hq, rfl⟩ := List.mem_map.1 hy
          rw [(hpure.2 q hq).same_eq_false hpure.1 (hother q hq).symm]
          rfl
        rw [total_cons, Expr.same_refl, hzero, add_zero]
        rfl
      · rw [total_cons, hpure.1.same_eq_false (hpure.2 q hq) (hother q hq),
          ih ⟨hpure.2, hproper.2, hnodup.2⟩ q hq]
        exact zero_add _

/-- Counted amounts are written as the totals of their expressions. -/
theorem eq_map (hl : IsCounted l) : l = (keys l).map fun x => (x, ofPair (total l x)) := by
  rw [keys, List.map_map]
  refine (List.map_id l).symm.trans (List.map_congr_left fun q hq => ?_)
  rw [Function.comp_apply, hl.total_eq q hq, ofPair_parts (hl.proper q hq)]
  rfl

/-- **Amounts with the same totals are the same, up to their order.** -/
theorem perm (hl : IsCounted l) (hl' : IsCounted l') (hkeys : ∀ x, x ∈ keys l ↔ x ∈ keys l')
    (htotal : ∀ x, total l x = total l' x) : l.Perm l' := by
  have hperm : (keys l).Perm (keys l') := (List.perm_ext_iff_of_nodup hl.nodup hl'.nodup).2 hkeys
  rw [hl.eq_map, hl'.eq_map]
  simp only [htotal]
  exact hperm.map _

/-- Different amounts are those of different expressions. -/
theorem eq_of_key (hl : IsCounted l) {p q : Expr × Number} (hp : p ∈ l) (hq : q ∈ l)
    (h : p.1 = q.1) : p = q := List.inj_on_of_nodup_map hl.nodup hp hq h

end IsCounted

/-! ## Products of pieces -/

/-- What a piece makes of a coefficient. -/
def Piece.scale (c : ℚ × ℚ) : Piece → ℚ × ℚ
  | .number v => pairMul c (parts v)
  | .sign => -c
  | _ => c

/-- The base of a piece. -/
def Piece.base? : Piece → Option Expr
  | .power base _ => some base
  | _ => none

/-- What a piece adds to the exponent of a base. -/
def Piece.amount (x : Expr) : Piece → ℚ × ℚ
  | .power base exponent => if base.same x then parts exponent else 0
  | _ => 0

/-- Coefficients are multiplied in any order. -/
instance rightCommutative_scale : RightCommutative Piece.scale where
  right_comm := by
    intro c x y
    cases x <;> cases y <;> simp [Piece.scale, pairMul, Prod.ext_iff]
    all_goals
      constructor <;> ring

/-- A pure piece. -/
abbrev Piece.IsPure (M : Prop) : Piece → Prop :=
  Piece.Meets (fun b n => Kernel.IsPure b ∧ n.isProper = true) (fun v => v.isProper = true) M

/-- What pieces multiply to: the coefficient, and the exponent of each base. -/
structure Factors.IsProductOf (p : Factors) (ps : List Piece) (s : Factors) : Prop where
  counted : IsCounted p.powers
  proper : p.coefficient.isProper = true
  coefficient : parts p.coefficient = ps.foldl Piece.scale (parts s.coefficient)
  keys : ∀ x, x ∈ Kernel.keys p.powers ↔ x ∈ Kernel.keys s.powers ∨ ∃ y ∈ ps, y.base? = some x
  total : ∀ x, Kernel.total p.powers x = Kernel.total s.powers x + (ps.map (Piece.amount x)).sum

/-- One piece. -/
theorem exists_multiply {x : Piece} {s : Factors} (hx : x.IsPure False)
    (hs : IsCounted s.powers) (hc : s.coefficient.isProper = true) :
    ∃ p, x.multiply s = .ok p ∧ p.IsProductOf [x] s := by
  cases x with
  | number v =>
      refine ⟨{ s with coefficient := ofPair (pairMul (parts s.coefficient) (parts v)) }, ?_,
        hs, isProper_ofPair _, parts_ofPair _, by simp [Piece.base?], by simp [Piece.amount]⟩
      rw [Piece.multiply, mul_parts hc hx]
      rfl
  | sign =>
      refine ⟨{ s with coefficient := ofPair (-parts s.coefficient) }, ?_,
        hs, isProper_ofPair _, parts_ofPair _, by simp [Piece.base?], by simp [Piece.amount]⟩
      rw [Piece.multiply, neg_parts hc]
      rfl
  | power base exponent =>
      obtain ⟨l, hl, hcounted, hkeys, htotal⟩ := hs.tally hx.1 hx.2
      refine ⟨{ s with powers := l }, ?_, hcounted, hc, rfl, fun y => ?_, fun y => ?_⟩
      · rw [Piece.multiply, Factors.count, hl]
        rfl
      · rw [hkeys y]
        simp [Piece.base?, eq_comm]
      · rw [htotal y]
        simp [Piece.amount]
  | missing => exact hx.elim

/-- **Pieces multiply to a coefficient and to the exponents of their bases.** -/
theorem exists_multiplyAll : ∀ {ps : List Piece} {s : Factors}, (∀ x ∈ ps, x.IsPure False) →
    IsCounted s.powers → s.coefficient.isProper = true →
    ∃ p, multiplyAll ps s = .ok p ∧ p.IsProductOf ps s
  | [], s, _, hs, hc => ⟨s, rfl, hs, hc, rfl, by simp, by simp⟩
  | x :: ps, s, hps, hs, hc => by
      rw [List.forall_mem_cons] at hps
      obtain ⟨p₁, hx, h₁⟩ := exists_multiply hps.1 hs hc
      obtain ⟨p, hp, h⟩ := exists_multiplyAll hps.2 h₁.counted h₁.proper
      refine ⟨p, by rw [multiplyAll_cons, hx]; exact hp, h.counted, h.proper, ?_, fun y => ?_,
        fun y => ?_⟩
      · rw [h.coefficient, h₁.coefficient]
        rfl
      · rw [h.keys, h₁.keys]
        simp [or_assoc]
      · rw [h.total, h₁.total]
        simp [add_assoc]

/-- Pieces one of which is missing multiply to nothing. -/
theorem multiplyAll_of_missing {ps : List Piece} {M : Prop} (hps : ∀ x ∈ ps, x.IsPure M)
    (h : Piece.missing ∈ ps) {s : Factors}
    (hs : s.Meets (fun b n => IsPure b ∧ n.isProper = true) fun v => v.isProper = true) :
    multiplyAll ps s = .error .missingOperand := by
  induction ps generalizing s with
  | nil => cases h
  | cons x ps ih =>
      rw [List.forall_mem_cons] at hps
      rw [multiplyAll_cons]
      rcases (collectable_proper IsPure).multiply hps.1 hs with ⟨-, hx⟩ | ⟨p, hx, hp⟩
      · rw [hx]
        rfl
      · rcases List.mem_cons.1 h with rfl | h
        · cases hx
        · rw [hx]
          exact ih hps.2 h hp

/-- **Pieces in another order multiply to the same coefficient and to the same powers**, in another
order, or one of them is missing. -/
theorem multiplyAll_perm {ps ps' : List Piece} {M : Prop} (hps : ∀ x ∈ ps, x.IsPure M)
    (h : ps.Perm ps') :
    (multiplyAll ps {} = .error .missingOperand ∧ multiplyAll ps' {} = .error .missingOperand) ∨
      ∃ p p', multiplyAll ps {} = .ok p ∧ multiplyAll ps' {} = .ok p' ∧ IsCounted p.powers ∧
        p.coefficient = p'.coefficient ∧ p.powers.Perm p'.powers := by
  have hps' : ∀ x ∈ ps', x.IsPure M := fun x hx => hps x (h.mem_iff.2 hx)
  by_cases hmissing : Piece.missing ∈ ps
  · exact .inl ⟨multiplyAll_of_missing hps hmissing ⟨rfl, by simp⟩,
      multiplyAll_of_missing hps' (h.mem_iff.1 hmissing) ⟨rfl, by simp⟩⟩
  · have hpure : ∀ x ∈ ps, x.IsPure False := by
      intro x hx
      have hmeets := hps x hx
      cases x with
      | missing => exact absurd hx hmissing
      | _ => exact hmeets
    obtain ⟨p, hp, hproduct⟩ := exists_multiplyAll (s := {}) hpure isCounted_nil rfl
    obtain ⟨p', hp', hproduct'⟩ := exists_multiplyAll (s := {})
      (fun x hx => hpure x (h.mem_iff.2 hx)) isCounted_nil rfl
    refine .inr ⟨p, p', hp, hp', hproduct.counted, ?_, ?_⟩
    · refine eq_of_parts hproduct.proper hproduct'.proper ?_
      rw [hproduct.coefficient, hproduct'.coefficient, h.foldl_eq]
    · refine hproduct.counted.perm hproduct'.counted (fun x => ?_) fun x => ?_
      · rw [hproduct.keys, hproduct'.keys]
        simp [h.mem_iff]
      · rw [hproduct.total, hproduct'.total, (h.map _).sum_eq]

variable {κ : String → ℤ} {precision : Nat}

/-- Powers by pure bases are arranged in one way. -/
theorem arrange_eq_of_perm {l l' : Tally} (hl : IsCounted l) (h : l.Perm l') :
    arrange κ l = arrange κ l' := by
  refine mergeSort_eq_of_perm h fun p hp q hq hcode => hl.eq_of_key hp hq ?_
  have hbare := code_injective (hl.pure p hp).exact (hl.pure q hq).exact hcode
  rwa [(hl.pure p hp).isBare, (hl.pure q hq).isBare] at hbare

theorem flatten_perm {a : Option String} {es es' : List Expr} (h : es.Perm es') :
    (Expr.flatten a es).Perm (Expr.flatten a es') := by
  rw [Expr.flatten_eq_flatMap, Expr.flatten_eq_flatMap]
  exact h.flatMap_right _

/-- **A product does not depend on the order of its factors**, nor does its fault. -/
theorem product_perm {es es' : List Expr} (hes : ∀ e ∈ es, IsPure e) (h : es.Perm es') :
    product κ precision es = product κ precision es' := by
  have hflat := Expr.forall_flatten (a := some "Multiply")
    (fun _ _ _ _ _ h => IsPure.operand h) hes
  have hpieces : (piecesAll (Expr.flatten (some "Multiply") es)).Perm
      (piecesAll (Expr.flatten (some "Multiply") es')) := by
    rw [piecesAll_eq_flatMap, piecesAll_eq_flatMap]
    exact (flatten_perm h).flatMap_right _
  rw [product, product]
  obtain ⟨hp, hp'⟩ | ⟨p, p', hp, hp', hcounted, hc, hperm⟩ :=
    multiplyAll_perm (dissectible_pure.piecesAll hflat) hpieces
  · rw [hp, hp']
  · rw [hp, hp']
    change written precision (arrange κ p.powers) p.coefficient = _
    rw [arrange_eq_of_perm hcounted hperm, hc]
    rfl

end SymbolicAlgebra.Kernel
