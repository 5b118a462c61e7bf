import SymbolicAlgebra.Arithmetic
import SymbolicAlgebra.Proofs.Action
import SymbolicAlgebra.Proofs.Structure

/-!
# Proofs/Pieces — what a product is collected from

A factor comes apart into *pieces*: numbers, signs and powers.  Collecting factors is multiplying
their pieces one by one (`collectFactors_eq`); it keeps every property that sums of exponents and
products of coefficients keep (`Collectable.multiplyAll`), and it does not look at definitions and
flags (`multiplyAll_bare`).
-/

namespace SymbolicAlgebra.Kernel

/-! ## Outcomes -/

theorem exists_of_bind_ok {ε α β : Type} {x : Except ε α} {f : α → Except ε β} {b : β}
    (h : (x >>= f) = .ok b) : ∃ a, x = .ok a ∧ f a = .ok b := by
  cases x with
  | error e => cases h
  | ok a => exact ⟨a, rfl, h⟩

theorem eq_ok_of_liftNumber {α : Type} {x : Except NumberFault α} {a : α}
    (h : liftNumber x = .ok a) : x = .ok a := by
  cases x <;> cases h
  rfl

/-! ## Pieces of a factor -/

/-- What a factor contributes to a product. -/
inductive Piece
  | number (value : Number)
  | sign
  | power (base : Expr) (exponent : Number)
  /-- A power without a base or an exponent. -/
  | missing

/-- Multiplies a piece into a product. -/
def Piece.multiply (p : Factors) : Piece → Except Fault Factors
  | .number v => do return { p with coefficient := ← liftNumber (p.coefficient.mul v) }
  | .sign => do return { p with coefficient := ← liftNumber p.coefficient.neg }
  | .power base exponent => p.count base exponent
  | .missing => throw .missingOperand

/-- The piece of a power; one without a literal exponent is a base itself. -/
def powerPiece (f : String) (ops : List Expr) (d : Option Nat) (c : Bool) : Piece :=
  match ops with
  | base :: .number exponent :: _ => .power base exponent
  | _ :: _ :: _ => .power (.application f ops d c) .one
  | _ => .missing

mutual

/-- The pieces of a factor. -/
def pieces : Expr → List Piece
  | .number v => [.number v]
  | .symbol n d c => [.power (.symbol n d c) .one]
  | .error code details operand => [.power (.error code details operand) .one]
  | .application f ops d c =>
      if f == "Negate" then .sign :: piecesAll ops
      else if f == "Multiply" then piecesAll ops
      else if f == "Power" then [powerPiece f ops d c]
      else [.power (.application f ops d c) .one]

def piecesAll : List Expr → List Piece
  | [] => []
  | e :: rest => pieces e ++ piecesAll rest

end

theorem piecesAll_eq_flatMap (es : List Expr) : piecesAll es = es.flatMap pieces := by
  induction es with
  | nil => rfl
  | cons e rest ih => rw [piecesAll, ih, List.flatMap_cons]

/-- Multiplies pieces into a product, one after the other. -/
def multiplyAll (ps : List Piece) (p : Factors) : Except Fault Factors := ps.foldlM Piece.multiply p

@[simp] theorem multiplyAll_nil (p : Factors) : multiplyAll [] p = .ok p := rfl

@[simp] theorem multiplyAll_cons (x : Piece) (ps : List Piece) (p : Factors) :
    multiplyAll (x :: ps) p = (do multiplyAll ps (← x.multiply p)) := List.foldlM_cons

theorem multiplyAll_append (xs ys : List Piece) (p : Factors) :
    multiplyAll (xs ++ ys) p = (do multiplyAll ys (← multiplyAll xs p)) := List.foldlM_append

theorem multiplyAll_singleton (x : Piece) (p : Factors) : multiplyAll [x] p = x.multiply p := by
  rw [multiplyAll_cons]
  exact bind_pure _

mutual

/-- **Collecting a factor is multiplying its pieces one by one.** -/
theorem collectFactor_eq : ∀ (e : Expr) (p : Factors), collectFactor e p = multiplyAll (pieces e) p
  | .number v, p => (multiplyAll_singleton (.number v) p).symm
  | .symbol n d c, p => (multiplyAll_singleton (.power (.symbol n d c) .one) p).symm
  | .error a b x, p => (multiplyAll_singleton (.power (.error a b x) .one) p).symm
  | .application f ops d c, p => by
      unfold pieces collectFactor
      split
      next =>
        rw [multiplyAll_cons]
        simp only [Piece.multiply, bind_assoc, pure_bind]
        exact bind_congr fun _ => collectFactors_eq ops _
      next =>
        split
        next => exact collectFactors_eq ops p
        next =>
          split
          next =>
            rw [multiplyAll_singleton]
            rcases ops with _ | ⟨base, _ | ⟨exponent, rest⟩⟩
            · rfl
            · rfl
            · cases exponent <;> rfl
          next => exact (multiplyAll_singleton (.power (.application f ops d c) .one) p).symm

theorem collectFactors_eq : ∀ (es : List Expr) (p : Factors),
    collectFactors es p = multiplyAll (piecesAll es) p
  | [], p => by rw [collectFactors]; rfl
  | e :: rest, p => by
      rw [collectFactors, piecesAll, multiplyAll_append, collectFactor_eq e p]
      exact bind_congr fun _ => collectFactors_eq rest _

end

theorem multiplyAll_number {v : Number} (hv : v.isProper = true) :
    multiplyAll [.number v] {} = .ok ⟨v, []⟩ := by
  rw [multiplyAll_singleton, Piece.multiply, Number.one_mul_of_isProper hv]
  rfl

theorem multiplyAll_power (e : Expr) {n : Number} (hn : n.isProper = true) :
    multiplyAll [.power e n] {} = .ok ⟨.one, [(e, n)]⟩ := by
  rw [multiplyAll_singleton, Piece.multiply, Factors.count, tally, Number.zero_add_of_isProper hn]
  rfl

/-- An expression that is its own only piece: it does not come apart. -/
structure IsBase (e : Expr) : Prop where
  pieces : pieces e = [.power e .one]
  notNumber : e.isNumber = false
  notProduct : e.operator ≠ "Multiply"

/-- A leaf of a product that is no negation and no power is a number or does not come apart. -/
theorem isBase_of_isLeaf {e : Expr} (hl : e.isLeaf (some "Multiply") = true)
    (hn : e.operator ≠ "Negate") (hp : e.operator ≠ "Power") : IsBase e ∨ ∃ v, e = .number v := by
  cases e with
  | number v => exact .inr ⟨v, rfl⟩
  | symbol n d c => exact .inl ⟨rfl, rfl, by simp [Expr.operator]⟩
  | error a b x => exact .inl ⟨rfl, rfl, by simp [Expr.operator]⟩
  | application f ops d c =>
      have hf : f ≠ "Negate" := hn
      have hf' : f ≠ "Power" := hp
      have hm : f ≠ "Multiply" := by
        rintro rfl
        cases hl
      refine .inl ⟨?_, rfl, hm⟩
      rw [pieces, if_neg (by simpa using hf), if_neg (by simpa using hm), if_neg (by simpa using hf')]

/-! ## What collecting keeps -/

/-- A property of a piece: `N` of a number, `Q` of a base and its exponent; `M` says whether pieces
may be missing. -/
def Piece.Meets (Q : Expr → Number → Prop) (N : Number → Prop) (M : Prop) : Piece → Prop
  | .number v => N v
  | .sign => True
  | .power base exponent => Q base exponent
  | .missing => M

/-- A property of a product taken apart. -/
structure Factors.Meets (Q : Expr → Number → Prop) (N : Number → Prop) (p : Factors) : Prop where
  coefficient : N p.coefficient
  powers : ∀ q ∈ p.powers, Q q.1 q.2

/-- What `Q` and `N` need so that collecting keeps them and never fails on numbers. -/
structure Collectable (Q : Expr → Number → Prop) (N : Number → Prop) : Prop where
  first : ∀ {e n}, Q e n → ∃ s, Number.zero.add n = .ok s ∧ Q e s
  again : ∀ {x e n m}, Q x n → Q e m → x.same e = true → ∃ s, n.add m = .ok s ∧ Q x s
  mul : ∀ {a b}, N a → N b → ∃ c, a.mul b = .ok c ∧ N c
  neg : ∀ {a}, N a → ∃ c, a.neg = .ok c ∧ N c

/-- Collecting keeps any property of bases, with proper exponents and coefficients. -/
theorem collectable_proper (P : Expr → Prop) : Collectable (fun b n => P b ∧ n.isProper = true)
    (fun v => v.isProper = true) where
  first := fun h => ⟨_, Number.zero_add_of_isProper h.2, h⟩
  again := by
    intro x e n m hx he _
    obtain ⟨s, hs, hp⟩ := Number.add_isProper (Number.isExact_of_isProper hx.2)
      (Number.isExact_of_isProper he.2)
    exact ⟨s, hs, hx.1, hp⟩
  mul := fun ha hb =>
    Number.mul_isProper (Number.isExact_of_isProper ha) (Number.isExact_of_isProper hb)
  neg := fun ha => Number.neg_isProper (Number.isExact_of_isProper ha)

section Collectable

variable {Q : Expr → Number → Prop} {N : Number → Prop} {M : Prop} (h : Collectable Q N)

include h

theorem Collectable.tally {e : Expr} {n : Number} (he : Q e n) :
    ∀ {l : Tally}, (∀ q ∈ l, Q q.1 q.2) → ∃ l', tally e n l = .ok l' ∧ ∀ q ∈ l', Q q.1 q.2
  | [], _ => by
      obtain ⟨s, hs, hq⟩ := h.first he
      exact ⟨[(e, s)], by rw [Kernel.tally, hs]; rfl, by simpa using hq⟩
  | (x, m) :: rest, hl => by
      have hx : Q x m := hl (x, m) (by simp)
      have hrest : ∀ q ∈ rest, Q q.1 q.2 := fun q hq => hl q (by simp [hq])
      rw [Kernel.tally]
      split
      next hsame =>
        obtain ⟨s, hs, hq⟩ := h.again hx he hsame
        exact ⟨(x, s) :: rest, by rw [hs]; rfl, List.forall_mem_cons.2 ⟨hq, hrest⟩⟩
      next =>
        obtain ⟨l', hl', hq⟩ := Collectable.tally he hrest
        exact ⟨(x, m) :: l', by rw [hl']; rfl, List.forall_mem_cons.2 ⟨hx, hq⟩⟩

/-- One piece: it is missing, or the product keeps its property. -/
theorem Collectable.multiply {x : Piece} {p : Factors} (hx : x.Meets Q N M) (hp : p.Meets Q N) :
    (M ∧ x.multiply p = .error .missingOperand) ∨
      ∃ p', x.multiply p = .ok p' ∧ p'.Meets Q N := by
  cases x with
  | number v =>
      obtain ⟨c, hc, hN⟩ := h.mul hp.coefficient hx
      exact .inr ⟨{ p with coefficient := c }, by rw [Piece.multiply, hc]; rfl, hN, hp.powers⟩
  | sign =>
      obtain ⟨c, hc, hN⟩ := h.neg hp.coefficient
      exact .inr ⟨{ p with coefficient := c }, by rw [Piece.multiply, hc]; rfl, hN, hp.powers⟩
  | power base exponent =>
      obtain ⟨l, hl, hq⟩ := h.tally hx hp.powers
      exact .inr ⟨{ p with powers := l }, by rw [Piece.multiply, Factors.count, hl]; rfl,
        hp.coefficient, hq⟩
  | missing => exact .inl ⟨hx, rfl⟩

/-- **All pieces: one of them is missing, or the product keeps its property.** -/
theorem Collectable.multiplyAll : ∀ {ps : List Piece} {p : Factors}, (∀ x ∈ ps, x.Meets Q N M) →
    p.Meets Q N → (M ∧ multiplyAll ps p = .error .missingOperand) ∨
      ∃ p', multiplyAll ps p = .ok p' ∧ p'.Meets Q N
  | [], p, _, hp => .inr ⟨p, rfl, hp⟩
  | x :: ps, p, hps, hp => by
      rw [List.forall_mem_cons] at hps
      rw [multiplyAll_cons]
      rcases h.multiply hps.1 hp with ⟨hM, hx⟩ | ⟨p', hx, hp'⟩
      · exact .inl ⟨hM, by rw [hx]; rfl⟩
      · rw [hx]
        exact Collectable.multiplyAll hps.2 hp'

end Collectable

/-- What `Q` and a quantity `φ` of amounts need so that an amount that is tallied is multiplied into
the quantity of the whole tally. -/
structure Tallied {M : Type*} [CommMonoid M] (Q : Expr → Number → Prop) (φ : Expr × Number → M) :
    Prop where
  first : ∀ {e n s}, Q e n → Number.zero.add n = .ok s → Q e s ∧ φ (e, s) = φ (e, n)
  again : ∀ {x e n m s}, Q x n → Q e m → x.same e = true → n.add m = .ok s →
    Q x s ∧ φ (x, s) = φ (x, n) * φ (e, m)

/-- **The quantity of a tally grows by the quantity of what is tallied.** -/
theorem Tallied.total {M : Type*} [CommMonoid M] {Q : Expr → Number → Prop} {φ : Expr × Number → M}
    (h : Tallied Q φ) {e : Expr} {n : Number} (he : Q e n) :
    ∀ {l l' : Tally}, (∀ q ∈ l, Q q.1 q.2) → tally e n l = .ok l' →
      (∀ q ∈ l', Q q.1 q.2) ∧ (l'.map φ).prod = (l.map φ).prod * φ (e, n)
  | [], l', _, hl' => by
      rw [Kernel.tally] at hl'
      obtain ⟨s, hs, hl'⟩ := exists_of_bind_ok hl'
      cases hl'
      obtain ⟨hQ, hφ⟩ := h.first he hs
      exact ⟨by simpa using hQ, by simp [hφ]⟩
  | (x, m) :: rest, l', hl, hl' => by
      rw [List.forall_mem_cons] at hl
      rw [Kernel.tally] at hl'
      split at hl'
      next hsame =>
        obtain ⟨s, hs, hl'⟩ := exists_of_bind_ok hl'
        cases hl'
        obtain ⟨hQ, hφ⟩ := h.again hl.1 he hsame hs
        refine ⟨List.forall_mem_cons.2 ⟨hQ, hl.2⟩, ?_⟩
        rw [List.map_cons, List.prod_cons, hφ, List.map_cons, List.prod_cons, mul_right_comm]
      next =>
        obtain ⟨l₁, hl₁, hl'⟩ := exists_of_bind_ok hl'
        cases hl'
        obtain ⟨hQ, hφ⟩ := Tallied.total h he hl.2 hl₁
        refine ⟨List.forall_mem_cons.2 ⟨hl.1, hQ⟩, ?_⟩
        rw [List.map_cons, List.prod_cons, hφ, List.map_cons, List.prod_cons, mul_assoc]

/-- What a property `P` of expressions needs so that the pieces have the properties `Q` and `N`. -/
structure Dissectible (P : Expr → Prop) (Q : Expr → Number → Prop) (N : Number → Prop) (M : Prop) :
    Prop where
  number : ∀ {v}, P (.number v) → N v
  operand : ∀ {f ops d c}, f = "Negate" ∨ f = "Multiply" → P (.application f ops d c) → ∀ x ∈ ops, P x
  power : ∀ {b n rest d c}, P (.application "Power" (b :: .number n :: rest) d c) → Q b n
  base : ∀ {e}, P e → IsBase e → Q e .one
  missing : ∀ {ops d c}, P (.application "Power" ops d c) → ops.length < 2 → M

section Dissectible

variable {P : Expr → Prop} {Q : Expr → Number → Prop} {N : Number → Prop} {M : Prop}

mutual

/-- The pieces of a factor have the property that its parts have. -/
theorem Dissectible.pieces (h : Dissectible P Q N M) :
    ∀ {e : Expr}, P e → ∀ x ∈ pieces e, x.Meets Q N M
  | .number v, he => List.forall_mem_singleton.2 (h.number he)
  | .symbol n d c, he => List.forall_mem_singleton.2 (h.base he ⟨rfl, rfl, by simp [Expr.operator]⟩)
  | .error a b x, he => List.forall_mem_singleton.2 (h.base he ⟨rfl, rfl, by simp [Expr.operator]⟩)
  | .application f ops d c, he => by
      have hops := fun hf => h.piecesAll (h.operand (f := f) hf he)
      have hbase : f ≠ "Multiply" →
          Kernel.pieces (.application f ops d c) = [.power (.application f ops d c) .one] →
            Q (.application f ops d c) .one := fun hf hp => h.base he ⟨hp, rfl, hf⟩
      rw [Kernel.pieces] at hbase ⊢
      split
      next hneg => exact List.forall_mem_cons.2 ⟨trivial, hops (.inl (by simpa using hneg))⟩
      next hneg =>
        split
        next hmul => exact hops (.inr (by simpa using hmul))
        next hmul =>
          rw [if_neg hneg, if_neg hmul] at hbase
          have hf : f ≠ "Multiply" := by simpa using hmul
          split
          next hpow =>
            rw [if_pos hpow] at hbase
            obtain rfl : f = "Power" := by simpa using hpow
            refine List.forall_mem_singleton.2 ?_
            rcases ops with _ | ⟨b, _ | ⟨n, rest⟩⟩
            · exact h.missing he (by simp)
            · exact h.missing he (by simp)
            · cases n with
              | number v => exact h.power he
              | _ => exact hbase hf rfl
          next hpow =>
            rw [if_neg hpow] at hbase
            exact List.forall_mem_singleton.2 (hbase hf rfl)

theorem Dissectible.piecesAll (h : Dissectible P Q N M) :
    ∀ {es : List Expr}, (∀ e ∈ es, P e) → ∀ x ∈ piecesAll es, x.Meets Q N M
  | [], _ => by simp [Kernel.piecesAll]
  | e :: rest, he => by
      rw [List.forall_mem_cons] at he
      rw [Kernel.piecesAll, List.forall_mem_append]
      exact ⟨h.pieces he.1, h.piecesAll he.2⟩

end

end Dissectible

/-! ## Pieces of bare expressions -/

/-- The piece without definitions and flags. -/
def Piece.bare : Piece → Piece
  | .power base exponent => .power base.bare exponent
  | x => x

/-- Amounts by bare expression. -/
def bareTally (l : Tally) : Tally := l.map fun q => (q.1.bare, q.2)

@[simp] theorem bareTally_nil : bareTally [] = [] := rfl

@[simp] theorem bareTally_cons (q : Expr × Number) (l : Tally) :
    bareTally (q :: l) = (q.1.bare, q.2) :: bareTally l := rfl

/-- The product taken apart, without definitions and flags. -/
def Factors.bare (p : Factors) : Factors := { p with powers := bareTally p.powers }

theorem powerPiece_bare (f : String) (ops : List Expr) (d : Option Nat) (c : Bool) :
    powerPiece f (ops.map Expr.bare) none true = (powerPiece f ops d c).bare := by
  rcases ops with _ | ⟨b, _ | ⟨n, rest⟩⟩
  · rfl
  · rfl
  · cases n <;> simp [powerPiece, Piece.bare, Expr.bare, Expr.bareAll_eq_map]

mutual

theorem pieces_bare : ∀ e : Expr, pieces e.bare = (pieces e).map Piece.bare
  | .number _ => rfl
  | .symbol _ _ _ => rfl
  | .error _ _ _ => rfl
  | .application f ops d c => by
      rw [Expr.bare_application, pieces, pieces]
      split
      next => exact congrArg (Piece.sign :: ·) (piecesAll_bare ops)
      next =>
        split
        next => rw [piecesAll_bare]
        next =>
          split
          next => rw [powerPiece_bare f ops d c, List.map_singleton]
          next => rw [List.map_singleton, Piece.bare, Expr.bare_application]

theorem piecesAll_bare : ∀ es : List Expr, piecesAll (es.map Expr.bare) = (piecesAll es).map Piece.bare
  | [] => rfl
  | e :: rest => by
      rw [List.map_cons, piecesAll, pieces_bare e, piecesAll_bare rest, piecesAll, List.map_append]

end

theorem tally_bare {e : Expr} {n : Number} : ∀ {l : Tally}, (∀ q ∈ l, q.1.isExact = true) →
    tally e.bare n (bareTally l) = (tally e n l).map bareTally
  | [], _ => by
      rw [bareTally_nil, tally, tally]
      cases Number.zero.add n <;> rfl
  | (x, m) :: rest, hl => by
      rw [List.forall_mem_cons] at hl
      rw [bareTally_cons, tally, tally, Expr.same_bare hl.1, tally_bare hl.2]
      split
      next => cases m.add n <;> rfl
      next => cases tally e n rest <;> rfl

section Bare

variable {Q : Expr → Number → Prop} {N : Number → Prop} {M : Prop}
  (hQ : ∀ {b n}, Q b n → b.isExact = true)

include hQ

theorem multiply_bare {x : Piece} {p : Factors} (hp : p.Meets Q N) :
    x.bare.multiply p.bare = (x.multiply p).map Factors.bare := by
  cases x with
  | number v =>
      change (do return { p.bare with coefficient := ← liftNumber (p.coefficient.mul v) }) = _
      rw [Piece.multiply]
      cases liftNumber (p.coefficient.mul v) <;> rfl
  | sign =>
      change (do return { p.bare with coefficient := ← liftNumber p.coefficient.neg }) = _
      rw [Piece.multiply]
      cases liftNumber p.coefficient.neg <;> rfl
  | power base exponent =>
      rw [Piece.bare, Piece.multiply, Piece.multiply, Factors.count, Factors.count, Factors.bare,
        tally_bare fun q hq => hQ (hp.powers q hq)]
      cases tally base exponent p.powers <;> rfl
  | missing => rfl

/-- **Collecting does not look at definitions and flags.** -/
theorem multiplyAll_bare (h : Collectable Q N) :
    ∀ {ps : List Piece} {p : Factors}, (∀ x ∈ ps, x.Meets Q N M) → p.Meets Q N →
      multiplyAll (ps.map Piece.bare) p.bare = (multiplyAll ps p).map Factors.bare
  | [], _, _, _ => rfl
  | x :: ps, p, hps, hp => by
      rw [List.forall_mem_cons] at hps
      rw [List.map_cons, multiplyAll_cons, multiplyAll_cons, multiply_bare hQ hp]
      rcases h.multiply hps.1 hp with ⟨-, hx⟩ | ⟨p', hx, hp'⟩
      · rw [hx]
        rfl
      · rw [hx]
        exact multiplyAll_bare h hps.2 hp'

end Bare

end SymbolicAlgebra.Kernel
