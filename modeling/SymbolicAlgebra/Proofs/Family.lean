import SymbolicAlgebra.Proofs.ArithmeticValue
import SymbolicAlgebra.Truth

/-!
# Proofs/Family — families of expressions that arithmetic does not leave

Arithmetic builds its results from numbers, from parts of its operands, and from applications of its
five operators to these.  A *family* that has those is never left: not by numbers of any lane, not
by errors among the operands, and not on the way to a fault (`Family.makes_add` and its siblings).
None of these operations runs without end.
-/

namespace SymbolicAlgebra

namespace Kernel

/-! ## Families -/

/-- The numbers of operands that arithmetic gives to an operator. -/
def isBuiltWith (f : String) (count : Nat) : Bool :=
  if f == "Negate" then count == 1
  else if f == "Divide" || f == "Power" then count == 2
  else count != 0

/-- Whether arithmetic and expansion look at the operands of an operator. -/
def isTransparent (f : String) : Bool :=
  arithmeticOperators.contains f || f == "Sequence" || (Relation.ofOperator? f).isSome

/-- A family of expressions, and the kernels whose pools do not lead out of it. -/
structure Family where
  Fits : Expr → Prop
  Holds : Kernel → Prop
  number : ∀ v, Fits (.number v)
  operand : ∀ {f ops d c}, isTransparent f = true → Fits (.application f ops d c) →
    ∀ x ∈ ops, Fits x
  /-- Powers only of valid expressions. -/
  node : ∀ {k f ops}, Holds k → f ∈ arithmeticOperators → isBuiltWith f ops.length = true →
    (f = "Power" → Expr.allValid ops = true) → (∀ x ∈ ops, Fits x) →
    Fits (.application f ops (k.table.functionNumber? f) true)
  pooled : ∀ {k e x}, Holds k → Fits e → x ∈ k.pool → e.same x = true → Fits x
  pooling : ∀ {k e}, Holds k → Fits e → Holds (k.pooling e)
  /-- The empty product that a sum may split off a constant. -/
  pooling_product : ∀ {k}, Holds k →
    Holds (k.pooling (.application "Multiply" [] (k.table.functionNumber? "Multiply") true))

/-- The family has all powers of its expressions, valid or not. -/
class Family.Free (F : Family) : Prop where
  power : ∀ {k a b}, F.Holds k → F.Fits a → F.Fits b →
    F.Fits (.application "Power" [a, b] (k.table.functionNumber? "Power") true)

/-- Any fault but that of running without end. -/
abbrev Bounded : Fault → Prop := fun f => f ≠ .unbounded

/-- The outcome satisfies `P`, or is a fault other than running without end. -/
def Ends {α : Type} (P : α → Prop) : Except Fault α → Prop
  | .ok a => P a
  | .error f => Bounded f

theorem Ends.bind {α β : Type} {P : α → Prop} {Q : β → Prop} {x : Except Fault α}
    {f : α → Except Fault β} (hx : Ends P x) (hf : ∀ a, P a → Ends Q (f a)) : Ends Q (x >>= f) := by
  cases x with
  | error e => exact hx
  | ok a => exact hf a hx

theorem ends_liftNumber {α : Type} {P : α → Prop} {x : Except NumberFault α}
    (h : ∀ a, x = .ok a → P a) : Ends P (liftNumber x) := by
  cases x with
  | error f => exact fun h => by cases h
  | ok a => exact h a rfl

theorem Ends.yields {α : Type} {P : α → Prop} {x : Except Fault α} {I : Kernel → Prop} {k : Kernel}
    (hk : I k) (hx : Ends P x) : Yields Bounded (ofExcept x) k fun a k' => I k' ∧ P a := by
  cases x with
  | error f => exact hx
  | ok a => exact ⟨hk, hx⟩

/-- The action ends in the family, or with a fault in `E`. -/
def Family.Makes (F : Family) (E : Fault → Prop) (a : Action Expr) (k : Kernel) : Prop :=
  Yields E a k fun r k' => F.Holds k' ∧ F.Fits r

/-- The action ends with expressions of the family, or with a fault in `E`. -/
def Family.MakesAll (F : Family) (E : Fault → Prop) (a : Action (List Expr)) (k : Kernel) : Prop :=
  Yields E a k fun rs k' => F.Holds k' ∧ ∀ e ∈ rs, F.Fits e

namespace Family

variable {F : Family} {E : Fault → Prop} {k : Kernel}

/-- The valid expressions of a family. -/
def valid (F : Family) : Family where
  Fits := fun e => F.Fits e ∧ e.isValid = true
  Holds := F.Holds
  number := fun v => ⟨F.number v, rfl⟩
  operand := fun hf h x hx => ⟨F.operand hf h.1 x hx, Expr.allValid_iff.1 h.2 x hx⟩
  node := fun hk hf hn hp hops =>
    ⟨F.node hk hf hn hp fun x hx => (hops x hx).1, Expr.allValid_iff.2 fun x hx => (hops x hx).2⟩
  pooled := fun hk he hx h => ⟨F.pooled hk he.1 hx h, (Expr.isValid_of_same h).trans he.2⟩
  pooling := fun hk he => F.pooling hk he.1
  pooling_product := F.pooling_product

instance (F : Family) : F.valid.Free where
  power := fun {k a b} hk ha hb => by
    have hv : Expr.allValid [a, b] = true := by rw [Expr.allValid_pair, ha.2, hb.2]; rfl
    exact F.valid.node hk (by decide) rfl (fun _ => hv) (by simpa using ⟨ha, hb⟩)

/-! ## Building -/

theorem makes_pure {e : Expr} (hk : F.Holds k) (he : F.Fits e) : F.Makes E (pure e) k :=
  Yields.pure ⟨hk, he⟩

theorem Makes.bind {a : Action Expr} {f : Expr → Action Expr} (ha : F.Makes E a k)
    (hf : ∀ r k', F.Holds k' → F.Fits r → F.Makes E (f r) k') : F.Makes E (a >>= f) k :=
  Yields.bind ha fun r k' h => hf r k' h.1 h.2

theorem Makes.cons {a : Action Expr} {b : Action (List Expr)} (ha : F.Makes E a k)
    (hb : ∀ k', F.Holds k' → F.MakesAll E b k') :
    F.MakesAll E (do let e ← a; return e :: (← b)) k :=
  Yields.bind ha fun _ k' hr => Yields.bind (hb k' hr.1) fun _ _ hrs =>
    Yields.pure ⟨hrs.1, List.forall_mem_cons.2 ⟨hr.2, hrs.2⟩⟩

theorem makesAll_mapM {α : Type} {l : List α} {f : α → Action Expr} (hk : F.Holds k)
    (h : ∀ a ∈ l, ∀ k, F.Holds k → F.Makes E (f a) k) : F.MakesAll E (l.mapM f) k := by
  induction l generalizing k with
  | nil => exact Yields.pure ⟨hk, by simp⟩
  | cons a rest ih =>
      rw [List.mapM_cons]
      exact (h a (by simp) k hk).cons fun k' hk' => ih hk' fun x hx => h x (by simp [hx])

/-- Interning keeps the structure. -/
theorem yields_intern {e : Expr} (hk : F.Holds k) (he : F.Fits e) :
    Yields E (intern e) k fun r k' => F.Holds k' ∧ F.Fits r ∧ (e.same r = true ∨ r = e) :=
  Kernel.yields_intern (fun _ hx h => ⟨hk, F.pooled hk he hx h, .inl h⟩)
    ⟨F.pooling hk he, he, .inr rfl⟩

/-- A number whose arithmetic gives no result is no reason to run without end. -/
theorem yields_number {α : Type} {x : Except NumberFault α} {P : α → Kernel → Prop}
    (h : ∀ a, x = .ok a → P a k) : Yields Bounded (Kernel.number x) k P :=
  Kernel.yields_number (fun _ _ => by simp) h

theorem makes_makeNumber {v : Number} (hk : F.Holds k) : F.Makes E (makeNumber v) k :=
  (yields_intern hk (F.number v)).mono fun _ _ h => ⟨h.1, h.2.1⟩

theorem makes_number {x : Except NumberFault Number} (hk : F.Holds k) :
    F.Makes Bounded (do makeNumber (← Kernel.number x)) k :=
  Yields.bind (P := fun _ k' => F.Holds k') (yields_number fun _ _ => hk) fun _ _ hk' =>
    makes_makeNumber hk'

/-- An application that is in the family, with the errors of its operands. -/
theorem yields_apply {f : String} {ops : List Expr} (hk : F.Holds k)
    (hnode : F.Fits (.application f ops (k.table.functionNumber? f) true)) :
    Yields E (apply f ops) k fun r k' =>
      F.Holds k' ∧ F.Fits r ∧ r.isValid = Expr.allValid ops := by
  refine Kernel.yields_apply ((yields_intern hk hnode).mono fun r k' h => ?_)
  refine ⟨h.1, h.2.1, ?_⟩
  rcases h.2.2 with hsame | rfl
  · exact Expr.isValid_of_same hsame
  · rfl

/-- The operators that the family has for all its expressions. -/
abbrev plainOperators : List String := ["Add", "Multiply", "Negate", "Divide"]

theorem fits_node {f : String} {ops : List Expr} (hk : F.Holds k) (hf : f ∈ plainOperators)
    (hn : isBuiltWith f ops.length = true) (hops : ∀ x ∈ ops, F.Fits x) :
    F.Fits (.application f ops (k.table.functionNumber? f) true) := by
  refine F.node hk ?_ hn ?_ hops
  · simp only [plainOperators, arithmeticOperators, List.mem_cons] at hf ⊢
    tauto
  · rintro rfl
    exact absurd hf (by decide)

theorem makes_apply {f : String} {ops : List Expr} (hk : F.Holds k) (hf : f ∈ plainOperators)
    (hn : isBuiltWith f ops.length = true) (hops : ∀ x ∈ ops, F.Fits x) :
    F.Makes E (apply f ops) k :=
  (yields_apply hk (fits_node hk hf hn hops)).mono fun _ _ h => ⟨h.1, h.2.1⟩

theorem makes_quotient {a b : Expr} (hk : F.Holds k) (ha : F.Fits a) (hb : F.Fits b) :
    F.Makes E (apply "Divide" [a, b]) k :=
  makes_apply hk (by decide) rfl (by simpa using ⟨ha, hb⟩)

theorem makes_power [F.Free] {a b : Expr} (hk : F.Holds k) (ha : F.Fits a) (hb : F.Fits b) :
    F.Makes E (apply "Power" [a, b]) k :=
  (yields_apply hk (Free.power hk ha hb)).mono fun _ _ h => ⟨h.1, h.2.1⟩

theorem fits_flatten {a : String} (ha : isTransparent a = true) {es : List Expr}
    (hes : ∀ e ∈ es, F.Fits e) : ∀ e ∈ Expr.flatten (some a) es, F.Fits e := by
  refine Expr.forall_flatten (fun f ops d c hf => F.operand ?_) hes
  rcases Expr.isSpliced_some.1 hf with rfl | rfl
  · decide
  · exact ha

/-! ## Products -/

theorem dissectible : Dissectible F.Fits (fun b _ => F.Fits b) (fun _ => True) True where
  number := fun _ => trivial
  operand := by
    rintro f ops d c (rfl | rfl) h
    · exact F.operand (by decide) h
    · exact F.operand (by decide) h
  power := fun h => F.operand (by decide) h _ (by simp)
  base := fun h _ => h
  missing := fun _ _ => trivial

/-- Tallying adds no expression but the one that is counted. -/
theorem fits_tally {P : Expr → Prop} {e : Expr} {n : Number} (he : P e) :
    ∀ {l l' : Tally}, (∀ q ∈ l, P q.1) → tally e n l = .ok l' → ∀ q ∈ l', P q.1
  | [], l', _, h => by
      rw [tally] at h
      cases hs : Number.zero.add n with
      | error f => simp [hs, bind, Except.bind] at h
      | ok s =>
          rw [hs] at h
          cases h
          simpa using he
  | (x, m) :: rest, l', hl, h => by
      rw [List.forall_mem_cons] at hl
      rw [tally] at h
      split at h
      next =>
        cases hs : m.add n with
        | error f => simp [hs, bind, Except.bind] at h
        | ok s =>
            rw [hs] at h
            cases h
            exact List.forall_mem_cons.2 hl
      next =>
        cases hs : tally e n rest with
        | error f => simp [hs, bind, Except.bind] at h
        | ok s =>
            rw [hs] at h
            cases h
            exact List.forall_mem_cons.2 ⟨hl.1, fits_tally he hl.2 hs⟩

/-- Multiplying a piece adds no base but its own. -/
theorem ends_multiply {x : Piece} {p : Factors}
    (hx : x.Meets (fun b _ => F.Fits b) (fun _ => True) True) (hp : ∀ q ∈ p.powers, F.Fits q.1) :
    Ends (fun p' => ∀ q ∈ p'.powers, F.Fits q.1) (x.multiply p) := by
  cases x with
  | number v => exact (ends_liftNumber (P := fun _ => True) fun _ _ => trivial).bind fun _ _ => hp
  | sign => exact (ends_liftNumber (P := fun _ => True) fun _ _ => trivial).bind fun _ _ => hp
  | power base exponent => exact (ends_liftNumber fun _ hl => fits_tally hx hp hl).bind fun _ hl => hl
  | missing => exact fun h => by cases h

theorem ends_multiplyAll : ∀ {ps : List Piece} {p : Factors},
    (∀ x ∈ ps, x.Meets (fun b _ => F.Fits b) (fun _ => True) True) →
    (∀ q ∈ p.powers, F.Fits q.1) →
    Ends (fun p' => ∀ q ∈ p'.powers, F.Fits q.1) (multiplyAll ps p)
  | [], _, _, hp => hp
  | x :: ps, p, hps, hp => by
      rw [List.forall_mem_cons] at hps
      rw [multiplyAll_cons]
      exact (ends_multiply hps.1 hp).bind fun p' hp' => ends_multiplyAll hps.2 hp'

theorem makes_writePower [F.Free] {base : Expr} {exponent : Number} (hk : F.Holds k) (hb : F.Fits base) :
    F.Makes E (writePower base exponent) k := by
  unfold writePower
  split
  next => exact makes_pure hk hb
  next => exact (makes_makeNumber hk).bind fun n k' hk' hn => makes_power hk' hb hn

theorem yields_foldPower {base : Expr} {exponent : Number} (hk : F.Holds k) :
    Yields Bounded (foldPower base exponent) k fun _ k' => F.Holds k' := by
  cases base with
  | number b =>
      refine Yields.bind (P := fun _ k' => F.Holds k') hk fun p k' hk' => ?_
      exact yields_number fun _ _ => hk'
  | _ => exact hk

/-- The factors that powers are written as are in the family. -/
theorem yields_makeFactors [F.Free] : ∀ {powers : Tally} {c : Number} {k : Kernel}, F.Holds k →
    (∀ q ∈ powers, F.Fits q.1) → Yields Bounded (makeFactors powers c) k fun r k' =>
      F.Holds k' ∧ ∀ e ∈ r.2, F.Fits e
  | [], c, k, hk, _ => Yields.pure ⟨hk, by simp⟩
  | (base, exponent) :: rest, c, k, hk, hp => by
      rw [List.forall_mem_cons] at hp
      rw [makeFactors_cons]
      split
      next => exact yields_makeFactors hk hp.2
      next =>
        refine (yields_foldPower hk).bind fun folded k₁ hk₁ => ?_
        cases folded with
        | some v =>
            refine Yields.bind (P := fun _ k' => F.Holds k') (yields_number fun _ _ => hk₁) ?_
            exact fun _ k₂ hk₂ => yields_makeFactors hk₂ hp.2
        | none =>
            refine Yields.bind (makes_writePower hk₁ hp.1) fun factor k₂ h => ?_
            refine (yields_makeFactors h.1 hp.2).bind fun r k₃ hr => ?_
            exact Yields.pure ⟨hr.1, List.forall_mem_cons.2 ⟨h.2, hr.2⟩⟩

theorem makes_assembleProduct {c : Number} {fs : List Expr} (hk : F.Holds k)
    (hfs : ∀ e ∈ fs, F.Fits e) : F.Makes E (assembleProduct c fs) k := by
  have hsigned : ∀ {p : Expr} {k}, F.Holds k → F.Fits p → F.Makes E (if c.isOne then pure p
      else if c.isNegativeOne then apply "Negate" [p]
      else do apply "Multiply" ((← makeNumber c) :: fs)) k := by
    intro p k hk hp
    split
    next => exact makes_pure hk hp
    next =>
      split
      next => exact makes_apply hk (by decide) rfl (by simpa using hp)
      next =>
        refine (makes_makeNumber hk).bind fun n k' hk' hn => ?_
        exact makes_apply hk' (by decide) rfl (List.forall_mem_cons.2 ⟨hn, hfs⟩)
  unfold assembleProduct
  split
  next => exact makes_makeNumber hk
  next =>
    rcases fs with _ | ⟨f, _ | ⟨g, rest⟩⟩
    · exact makes_makeNumber hk
    · exact hsigned hk (hfs f (by simp))
    · exact (makes_apply hk (by decide) rfl hfs).bind fun p k' hk' hp => hsigned hk' hp

theorem makes_multiply [F.Free] {es : List Expr} (hk : F.Holds k) (hes : ∀ e ∈ es, F.Fits e) :
    F.Makes Bounded (mul.multiply es) k := by
  have hp := ends_multiplyAll (p := {}) (F.dissectible.piecesAll hes) (by simp)
  unfold mul.multiply
  rw [collectFactors_eq]
  refine (hp.yields hk).bind fun p k₁ h₁ => ?_
  refine Yields.bind (P := fun _ k' => F.Holds k') h₁.1 fun t k₂ hk₂ => ?_
  have hsorted : ∀ q ∈ sortPowers t p.powers, F.Fits q.1 :=
    fun q hq => h₁.2 q ((sortPowers_perm t p.powers).mem_iff.1 hq)
  exact (yields_makeFactors hk₂ hsorted).bind fun r k₃ h₃ => makes_assembleProduct h₃.1 h₃.2

/-- **A product of leaves in the family stays in the family.** -/
theorem makes_mul_of_flatten [F.Free] {ops : List Expr} (hk : F.Holds k)
    (hops : ∀ e ∈ Expr.flatten (some "Multiply") ops, F.Fits e) : F.Makes Bounded (mul ops) k := by
  unfold mul
  simp only
  generalize Expr.flatten (some "Multiply") ops = es at hops
  split
  next hinvalid =>
    refine makes_apply hk (by decide) ?_ hops
    cases es with
    | nil => cases hinvalid
    | cons e rest => rfl
  next =>
    rcases es with _ | ⟨e, _ | ⟨e', rest⟩⟩
    · exact makes_makeNumber hk
    · simp only
      split
      next => exact makes_pure hk (hops e (by simp))
      next => exact makes_multiply hk hops
    · exact makes_multiply hk hops

theorem makes_mul [F.Free] {ops : List Expr} (hk : F.Holds k) (hops : ∀ e ∈ ops, F.Fits e) :
    F.Makes Bounded (mul ops) k :=
  makes_mul_of_flatten hk (fits_flatten (by decide) hops)

/-! ## Sums -/

/-- A monomial of the family, or the empty product. -/
def FitsMonomial (F : Family) (m : Expr) : Prop :=
  F.Fits m ∨ ∃ d c, m = .application "Multiply" [] d c

theorem FitsMonomial.flatten {n m : Expr} (hn : F.Fits n) (h : F.FitsMonomial m) :
    ∀ e ∈ Expr.flatten (some "Multiply") [n, m], F.Fits e := by
  rcases h with h | ⟨d, c, rfl⟩
  · exact fits_flatten (by decide) (by simpa using ⟨hn, h⟩)
  · simpa [Expr.flatten, Expr.leaves, Expr.isSpliced] using
      fits_flatten (a := "Multiply") (by decide) (List.forall_mem_singleton.2 hn)

/-- What a number is split off from is in the family, or empty. -/
theorem yields_apply_product {ops : List Expr} (hk : F.Holds k) (hops : ∀ e ∈ ops, F.Fits e) :
    Yields E (apply "Multiply" ops) k fun m k' => F.Holds k' ∧ F.FitsMonomial m := by
  cases ops with
  | cons e rest => exact (makes_apply hk (by decide) rfl hops).mono fun _ _ h => ⟨h.1, .inl h.2⟩
  | nil =>
      refine Kernel.yields_apply (Kernel.yields_intern (fun x _ h => ⟨hk, .inr ?_⟩)
        ⟨F.pooling_product hk, .inr ⟨_, _, rfl⟩⟩)
      cases x with
      | application g ys d c =>
          simp only [Expr.same, Bool.and_eq_true, beq_iff_eq] at h
          cases ys with
          | nil => exact ⟨d, c, by rw [← h.1]⟩
          | cons y ys => simp [Expr.sameAll] at h
      | _ => simp [Expr.same] at h

theorem yields_splitCoefficient [F.Free] {e : Expr} (hk : F.Holds k) (he : F.Fits e) :
    Yields Bounded (splitCoefficient e) k fun s k' =>
      F.Holds k' ∧ ∀ m, s.2 = some m → F.FitsMonomial m := by
  obtain ⟨split, heq, hsplits⟩ := exists_splits e
  rw [heq]
  refine Yields.bind (makes_mul hk (by simpa using he)) fun p k₁ h₁ => ?_
  have h := hsplits p
  generalize split p = a at h ⊢
  cases h with
  | number v => exact Yields.pure ⟨h₁.1, by simp⟩
  | negation m rest d c =>
      have hm := F.operand (by decide) h₁.2 m (by simp)
      exact Yields.pure ⟨h₁.1, by simpa using .inl hm⟩
  | multiple v m d c =>
      have hm := F.operand (by decide) h₁.2 m (by simp)
      exact Yields.pure ⟨h₁.1, by simpa using .inl hm⟩
  | product v rest d c hrest =>
      have hops := F.operand (by decide) h₁.2
      rw [List.forall_mem_cons] at hops
      refine (yields_apply_product h₁.1 hops.2).bind fun m k₂ h₂ => ?_
      exact Yields.pure ⟨h₂.1, by simpa using h₂.2⟩
  | empty d c hf => exact Yields.throw (by simp)
  | whole => exact Yields.pure ⟨h₁.1, by simpa using .inl h₁.2⟩

theorem yields_collectTerms [F.Free] : ∀ {es : List Expr} {s : Terms} {k : Kernel}, F.Holds k →
    (∀ e ∈ es, F.Fits e) → (∀ q ∈ s.monomials, F.FitsMonomial q.1) →
    Yields Bounded (collectTerms es s) k fun s' k' =>
      F.Holds k' ∧ ∀ q ∈ s'.monomials, F.FitsMonomial q.1
  | [], s, k, hk, _, hs => Yields.pure ⟨hk, hs⟩
  | e :: rest, s, k, hk, hes, hs => by
      rw [List.forall_mem_cons] at hes
      refine (yields_splitCoefficient hk hes.1).bind ?_
      rintro ⟨v, m⟩ k₁ ⟨hk₁, hm⟩
      cases m with
      | none =>
          refine Yields.bind (P := fun _ k' => F.Holds k') (yields_number fun _ _ => hk₁) ?_
          exact fun c k₂ hk₂ => yields_collectTerms hk₂ hes.2 hs
      | some m =>
          refine Yields.bind (P := fun l k' => F.Holds k' ∧ ∀ q ∈ l, F.FitsMonomial q.1)
            (yields_number fun l hl => ⟨hk₁, fits_tally (hm m rfl) hs hl⟩) ?_
          exact fun l k₂ h₂ => yields_collectTerms h₂.1 hes.2 h₂.2

theorem makes_assembleSum {c : Number} {summands : List Expr} (hk : F.Holds k)
    (hs : ∀ e ∈ summands, F.Fits e) : F.Makes E (assembleSum c summands) k := by
  unfold assembleSum
  split
  next =>
    refine Yields.bind (makes_makeNumber (F := F) hk) fun n k' hn => ?_
    have hes : ∀ e ∈ summands ++ [n], F.Fits e :=
      List.forall_mem_append.2 ⟨hs, by simpa using hn.2⟩
    simp only [pure_bind]
    split
    next e he => exact makes_pure hn.1 (hes e (by simp [he]))
    next => exact makes_apply hn.1 (by decide) (by simp [isBuiltWith]) hes
  next hnonempty =>
    simp only [pure_bind]
    split
    next => exact makes_pure hk (hs _ (by simp))
    next =>
      refine makes_apply hk (by decide) ?_ hs
      simp_all [isBuiltWith]

theorem ends_monomialFactors (m : Expr) : Ends (fun _ => True) (monomialFactors m) := by
  cases h : monomialFactors m with
  | ok l => exact trivial
  | error f =>
      obtain ⟨x, -, hx⟩ := exists_of_mapM_error h
      split at hx
      next =>
        split at hx
        next => cases hx
        next => cases hx
        next =>
          cases hx
          exact fun h => by cases h
      next => cases hx

theorem ends_sortTerms {t : DefinitionTable} {l : Tally} {P : Expr → Prop} (hl : ∀ q ∈ l, P q.1) :
    Ends (fun l' => ∀ q ∈ l', P q.1) (sortTerms t l) := by
  cases h : sortTerms t l with
  | ok l' => exact fun q hq => hl q ((sortTerms_perm h).mem_iff.1 hq)
  | error f =>
      obtain ⟨q, -, hq⟩ := exists_of_sortTerms_error h
      have hends := ends_monomialFactors q.1
      rwa [hq] at hends

/-- **A sum of expressions of the family stays in the family.** -/
theorem makes_add [F.Free] {ops : List Expr} (hk : F.Holds k) (hops : ∀ e ∈ ops, F.Fits e) :
    F.Makes Bounded (add ops) k := by
  have hes := F.fits_flatten (a := "Add") (by decide) hops
  rw [add_eq]
  split
  next hinvalid =>
    refine makes_apply hk (by decide) ?_ hes
    generalize Expr.flatten (some "Add") ops = es at hinvalid
    cases es with
    | nil => cases hinvalid
    | cons e rest => rfl
  next =>
    refine (yields_collectTerms hk hes (by simp)).bind fun s k₁ h₁ => ?_
    split
    next => exact makes_makeNumber h₁.1
    next =>
      refine Yields.bind (P := fun _ k' => F.Holds k') h₁.1 fun t k₂ hk₂ => ?_
      have hterms : ∀ q ∈ s.monomials.filter fun q => !q.2.isZero, F.FitsMonomial q.1 :=
        fun q hq => h₁.2 q (List.mem_filter.1 hq).1
      refine ((ends_sortTerms hterms).yields hk₂).bind fun terms k₃ h₃ => ?_
      refine Yields.bind (makesAll_mapM h₃.1 fun q hq k hk => ?_) fun es k₄ h₄ =>
        makes_assembleSum h₄.1 h₄.2
      refine (makes_makeNumber hk).bind fun n k' hk' hn => ?_
      exact makes_mul_of_flatten hk' ((h₃.2 q hq).flatten hn)

/-! ## Opposites -/

theorem makes_require {x : Option Expr} (hk : F.Holds k) (hx : ∀ e, x = some e → F.Fits e) :
    F.Makes Bounded (require x) k := by
  cases x with
  | none => exact fun h => by cases h
  | some e => exact makes_pure hk (hx e rfl)

theorem makes_negated [F.Free] {e : Expr} (hk : F.Holds k) (he : F.Fits e) :
    F.Makes Bounded (do mul [← negativeOne, e]) k :=
  (makes_makeNumber hk).bind fun _ _ hk' hn => makes_mul hk' (by simpa using ⟨hn, he⟩)

mutual

/-- **The opposite of an expression of the family is in the family.** -/
theorem makes_neg [F.Free] : ∀ {e : Expr} {k : Kernel}, F.Holds k → F.Fits e → F.Makes Bounded (neg e) k
  | .number v, k, hk, _ => by
      unfold neg
      exact makes_number hk
  | .symbol n d c, k, hk, he => by
      unfold neg
      exact makes_negated hk he
  | .error a b x, k, hk, he => by
      unfold neg
      exact makes_apply hk (by decide) rfl (by simpa using he)
  | .application f ops d c, k, hk, he => by
      unfold neg
      split
      next hneg =>
        obtain rfl : f = "Negate" := by simpa using hneg
        exact makes_require hk fun x hx =>
          F.operand (by decide) he x (List.mem_of_mem_head? hx)
      next =>
        split
        next => exact makes_apply hk (by decide) rfl (by simpa using he)
        next =>
          split
          next hadd =>
            obtain rfl : f = "Add" := by simpa using hadd
            exact Yields.bind (makesAll_negAll hk (F.operand (by decide) he)) fun _ _ h =>
              makes_add h.1 h.2
          next => exact makes_negated hk he

theorem makesAll_negAll [F.Free] : ∀ {es : List Expr} {k : Kernel}, F.Holds k → (∀ e ∈ es, F.Fits e) →
    F.MakesAll Bounded (negAll es) k
  | [], k, hk, _ => Yields.pure ⟨hk, by simp⟩
  | e :: rest, k, hk, hes => by
      rw [List.forall_mem_cons] at hes
      unfold negAll
      exact (makes_neg hk hes.1).cons fun k' hk' => makesAll_negAll hk' hes.2

end

/-! ## Quotients -/

theorem makes_divWithin [F.Free] : ∀ (fuel : Nat) {a b : Expr} {k : Kernel}, F.Holds k → F.Fits a →
    F.Fits b → F.Makes Bounded (divWithin fuel a b) k
  | 0, a, b, k, hk, ha, hb => makes_quotient hk ha hb
  | fuel + 1, a, b, k, hk, ha, hb => by
      obtain ⟨step, heq, hstep⟩ := exists_divides a b
      rw [heq]
      cases hstep with
      | invalid => exact makes_quotient hk ha hb
      | plain => exact makes_quotient hk ha hb
      | lacking => exact Yields.throw (by simp)
      | numbers => exact makes_number hk
      | byOne => exact makes_pure hk ha
      | byNumber =>
          refine Yields.bind (P := fun _ k' => F.Holds k') (yields_number fun _ _ => hk) ?_
          exact fun _ k₁ hk₁ => (makes_makeNumber hk₁).bind fun n k₂ hk₂ hn =>
            makes_mul hk₂ (by simpa using ⟨ha, hn⟩)
      | ofZero => exact makes_makeNumber hk
      | same => exact makes_makeNumber hk
      | ofQuotient n d rest i c =>
          have hops := F.operand (by decide) ha
          refine (makes_mul hk (by simpa using ⟨hops d (by simp), hb⟩)).bind fun r k₁ hk₁ hr => ?_
          exact makes_divWithin fuel hk₁ (hops n (by simp)) hr
      | byQuotient _ n d rest i c =>
          have hops := F.operand (by decide) hb
          refine (makes_mul hk (by simpa using ⟨ha, hops d (by simp)⟩)).bind fun r k₁ hk₁ hr => ?_
          exact makes_divWithin fuel hk₁ hr (hops n (by simp))

/-- **The quotient of expressions of the family is in the family.** -/
theorem makes_div [F.Free] {a b : Expr} (hk : F.Holds k) (ha : F.Fits a) (hb : F.Fits b) :
    F.Makes Bounded (div a b) k := makes_divWithin _ hk ha hb

/-! ## Powers -/

mutual

/-- **A power of expressions of the family is in the family.** -/
theorem makes_pow [F.Free] : ∀ {b e : Expr} {k : Kernel}, F.Holds k → F.Fits b → F.Fits e →
    F.Makes Bounded (pow b e) k
  | b, e, k, hk, hb, he => by
      have h := raises b e
      generalize pow b e = a at h ⊢
      cases h with
      | invalid => exact makes_power hk hb he
      | plain => exact makes_power hk hb he
      | lacking => exact Yields.throw (by simp)
      | byZero => exact makes_makeNumber hk
      | byOne => exact makes_pure hk hb
      | ofOne => exact makes_makeNumber hk
      | numbers v w =>
          refine Yields.bind (P := fun _ k' => F.Holds k') hk fun p k₁ hk₁ => ?_
          refine Yields.bind (P := fun _ k' => F.Holds k') (yields_number fun _ _ => hk₁) ?_
          intro o k₂ hk₂
          cases o with
          | some x => exact makes_makeNumber hk₂
          | none => exact makes_power hk₂ hb he
      | ofPower b x rest i c h =>
          refine Yields.bind (P := fun _ k' => F.Holds k') (yields_number fun _ _ => hk) ?_
          exact fun _ k₁ hk₁ => (makes_makeNumber hk₁).bind fun m k₂ hk₂ hm =>
            makes_pow hk₂ (F.operand (by decide) hb b (by simp)) hm
      | ofNegation b rest i c h =>
          refine (makes_pow hk (F.operand (by decide) hb b (by simp)) he).bind fun r k₁ hk₁ hr => ?_
          split
          next => exact makes_pure hk₁ hr
          next => exact makes_neg hk₁ hr
      | ofProduct ops i c h =>
          exact Yields.bind (makesAll_powAll hk (F.operand (by decide) hb) he)
            fun _ _ h => makes_mul h.1 h.2
      | ofQuotient x y rest i c h =>
          have hops := F.operand (by decide) hb
          refine (makes_pow hk (hops x (by simp)) he).bind fun x k₁ hk₁ hx => ?_
          refine (makes_pow hk₁ (hops y (by simp)) he).bind fun y k₂ hk₂ hy => ?_
          exact makes_div hk₂ hx hy

theorem makesAll_powAll [F.Free] : ∀ {es : List Expr} {e : Expr} {k : Kernel}, F.Holds k →
    (∀ b ∈ es, F.Fits b) → F.Fits e → F.MakesAll Bounded (powAll es e) k
  | [], e, k, hk, _, _ => by
      unfold powAll
      exact Yields.pure ⟨hk, by simp⟩
  | b :: rest, e, k, hk, hes, he => by
      rw [List.forall_mem_cons] at hes
      unfold powAll
      exact (makes_pow hk hes.1 he).cons fun k' hk' => makesAll_powAll hk' hes.2 he

end

theorem makes_inv [F.Free] {e : Expr} (hk : F.Holds k) (he : F.Fits e) : F.Makes Bounded (inv e) k := by
  have h := inverts e
  generalize inv e = a at h ⊢
  cases h with
  | number => exact makes_number hk
  | quotient n d rest i c =>
      have hops := F.operand (by decide) he
      exact makes_div hk (hops d (by simp)) (hops n (by simp))
  | power b v rest i c =>
      refine Yields.bind (P := fun _ k' => F.Holds k') (yields_number fun _ _ => hk) ?_
      exact fun _ k₁ hk₁ => (makes_makeNumber hk₁).bind fun m k₂ hk₂ hm =>
        makes_pow hk₂ (F.operand (by decide) he b (by simp)) hm
  | lacking => exact Yields.throw (by simp)
  | plain => exact (makes_makeNumber hk).bind fun _ _ hk' hn => makes_div hk' hn he

end Family

end Kernel

end SymbolicAlgebra
