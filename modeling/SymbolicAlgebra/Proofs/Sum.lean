import SymbolicAlgebra.Proofs.Steps
import SymbolicAlgebra.Proofs.Product

/-!
# Proofs/Sum — what `add` gives

`Realm.Sum` says what a sum of bare expressions is: each summand is multiplied out and split into a
coefficient and a monomial, coefficients of one monomial are added, and the terms are arranged and
multiplied out again.  `Realm.yields_add` says that `add` gives such a sum.
-/

namespace SymbolicAlgebra.Kernel

/-! ## Sums of bare expressions -/

/-- The coefficient of a product, and what it multiplies. -/
def splitOf : Expr → Except Fault (Number × Option Expr)
  | .number v => .ok (v, none)
  | .application f ops d c =>
      if f == "Negate" then
        match ops with
        | m :: _ => .ok (.negativeOne, some m)
        | [] => .error .missingOperand
      else if f == "Multiply" then
        match ops with
        | [.number v, m] => .ok (v, some m)
        | .number v :: rest => .ok (v, some (.node "Multiply" rest))
        | [] => .error .missingOperand
        | _ => .ok (.one, some (.application f ops d c))
      else .ok (.one, some (.application f ops d c))
  | e => .ok (.one, some e)

/-- The sum of summands without a constant. -/
def bareSum : List Expr → Expr
  | [e] => e
  | es => .node "Add" es

/-- The sum of summands and a constant. -/
def sumOf (constant : Number) (summands : List Expr) : Expr :=
  bareSum
    (if !constant.isZero || summands.isEmpty then summands ++ [.number constant] else summands)

/-- The sum taken apart, without definitions and flags. -/
def Terms.bare (s : Terms) : Terms := { s with monomials := bareTally s.monomials }

namespace Realm

variable (R : Realm)

/-- What the factors of a product may multiply to, once nested products are flattened. -/
def FlatProduct (es : List Expr) (o : Except Fault Expr) : Prop :=
  R.Product (Expr.flatten (some "Multiply") es) o

/-- What a summand may split into. -/
def Split (e : Expr) (o : Except Fault (Number × Option Expr)) : Prop :=
  ∃ p, R.FlatProduct [e] p ∧ o = p.bind splitOf

/-- What summands may be collected into. -/
inductive Collected : List Expr → Terms → Except Fault Terms → Prop
  | nil {s} : Collected [] s (.ok s)
  | fault {e rest s f} : R.Split e (.error f) → Collected (e :: rest) s (.error f)
  | constant {e rest s v c o} : R.Split e (.ok (v, none)) → s.constant.add v = .ok c →
      Collected rest { s with constant := c } o → Collected (e :: rest) s o
  | monomial {e rest s v m l o} : R.Split e (.ok (v, some m)) → tally m v s.monomials = .ok l →
      Collected rest { s with monomials := l } o → Collected (e :: rest) s o

/-- What a sum of summands may be: their terms collected, arranged and multiplied out. -/
def Sum (es : List Expr) (o : Except Fault Expr) : Prop :=
  (∃ f, R.Collected es {} (.error f) ∧ o = .error f) ∨
    ∃ s, R.Collected es {} (.ok s) ∧
      ((∃ f, o = .error f ∧ ∃ q ∈ s.monomials, q.2.isZero = false ∧
          (monomialFactors q.1 = .error f ∨ R.FlatProduct [.number q.2, q.1] (.error f))) ∨
        ∃ terms summands,
          R.ArrangedTerms terms (s.monomials.filter fun q => !q.2.isZero) ∧
          List.Forall₂ (fun q e => R.FlatProduct [.number q.2, q.1] (.ok e)) terms summands ∧
          o = .ok (sumOf s.constant summands))

end Realm

/-! ## The order of terms -/

section MapM

variable {α β ε : Type} {f : α → Except ε β}

/-- A list action on outcomes fails only where one of its steps does. -/
theorem exists_of_mapM_error {e : ε} : ∀ {l : List α}, l.mapM f = .error e → ∃ a ∈ l, f a = .error e
  | [], h => by cases h
  | a :: rest, h => by
      rw [List.mapM_cons] at h
      cases ha : f a with
      | error e' =>
          rw [ha] at h
          cases h
          exact ⟨a, by simp, ha⟩
      | ok b =>
          rw [ha] at h
          cases hr : rest.mapM f with
          | error e' =>
              rw [hr] at h
              cases h
              obtain ⟨x, hx, hfx⟩ := exists_of_mapM_error hr
              exact ⟨x, by simp [hx], hfx⟩
          | ok bs =>
              rw [hr] at h
              cases h

theorem forall₂_of_mapM_ok : ∀ {l : List α} {bs : List β}, l.mapM f = .ok bs →
    List.Forall₂ (fun a b => f a = .ok b) l bs
  | [], bs, h => by
      cases h
      exact .nil
  | a :: rest, bs, h => by
      rw [List.mapM_cons] at h
      cases ha : f a with
      | error e' =>
          rw [ha] at h
          cases h
      | ok b =>
          rw [ha] at h
          cases hr : rest.mapM f with
          | error e' =>
              rw [hr] at h
              cases h
          | ok bs' =>
              rw [hr] at h
              cases h
              exact .cons ha (forall₂_of_mapM_ok hr)

/-- What related elements hand over holds of the whole second list. -/
theorem forall_of_forall₂ {R : α → β → Prop} {P : α → Prop} {Q : β → Prop}
    (hPQ : ∀ a b, R a b → P a → Q b) {l : List α} {l' : List β} (h : List.Forall₂ R l l')
    (hl : ∀ a ∈ l, P a) : ∀ b ∈ l', Q b := by
  induction h with
  | nil => simp
  | cons hab _ ih =>
      rw [List.forall_mem_cons] at hl
      exact List.forall_mem_cons.2 ⟨hPQ _ _ hab hl.1, ih hl.2⟩

theorem mapM_map_of_comm {f' : α → Except ε β} {g : α → α} {g' : β → β}
    (h : ∀ a, f' (g a) = (f a).map g') :
    ∀ l : List α, (l.map g).mapM f' = (l.mapM f).map (List.map g')
  | [] => rfl
  | a :: rest => by
      rw [List.map_cons, List.mapM_cons, List.mapM_cons, h a, mapM_map_of_comm h rest]
      cases f a with
      | error e => rfl
      | ok b => cases rest.mapM f <;> rfl

end MapM

/-- The bases of a monomial do not depend on definitions and flags. -/
theorem monomialFactors_bare (m : Expr) :
    monomialFactors m.bare = (monomialFactors m).map (List.map fun q => (q.1.bare, q.2)) := by
  have hfactors : (if m.bare.operator == "Multiply" then m.bare.operands else [m.bare]) =
      (if m.operator == "Multiply" then m.operands else [m]).map Expr.bare := by
    rw [Expr.operator_bare, Expr.operands_bare]
    split <;> rfl
  unfold monomialFactors
  simp only [hfactors]
  refine mapM_map_of_comm (fun f => ?_) _
  rw [Expr.operator_bare, Expr.operands_bare]
  split
  next =>
    rcases f.operands with _ | ⟨b, _ | ⟨n, rest⟩⟩
    · rfl
    · rfl
    · rcases n with (_ | _) | _ | _ | _ <;> rfl
  next => rfl

theorem termKey_error {t : DefinitionTable} {m : Expr} {f : Fault} (h : TermKey.of t m = .error f) :
    monomialFactors m = .error f := by
  unfold TermKey.of at h
  cases hm : monomialFactors m with
  | error g =>
      rw [hm] at h
      cases h
      rfl
  | ok l =>
      rw [hm] at h
      cases h

/-- A term with its key. -/
def keyed (t : DefinitionTable) (q : Expr × Number) : Except Fault (TermKey × Expr × Number) := do
  return (← TermKey.of t q.1, q)

theorem sortTerms_eq (t : DefinitionTable) (l : Tally) :
    sortTerms t l = (l.mapM (keyed t)).map fun ks =>
      (ks.mergeSort fun x y => x.1.le y.1).map (·.2) := by
  change (l.mapM (keyed t) >>= _) = _
  cases l.mapM (keyed t) <;> rfl

theorem keyed_ok {t : DefinitionTable} {q : Expr × Number} {x : TermKey × Expr × Number}
    (h : keyed t q = .ok x) : TermKey.of t q.1 = .ok x.1 ∧ x.2 = q := by
  unfold keyed at h
  cases hk : TermKey.of t q.1 with
  | error g =>
      rw [hk] at h
      cases h
  | ok key =>
      rw [hk] at h
      cases h
      exact ⟨rfl, rfl⟩

theorem map_snd_of_keyed {t : DefinitionTable} {l : Tally} {ks : List (TermKey × Expr × Number)}
    (h : l.mapM (keyed t) = .ok ks) : ks.map (·.2) = l := by
  have hks := (forall₂_of_mapM_ok h).imp fun q x h => (keyed_ok h).2.symm
  rw [← List.forall₂_map_right_iff (R := (· = ·)), List.forall₂_eq_eq_eq] at hks
  exact hks.symm

/-- Sorting terms fails only on a monomial whose bases cannot be read. -/
theorem exists_of_sortTerms_error {t : DefinitionTable} {l : Tally} {f : Fault}
    (h : sortTerms t l = .error f) : ∃ q ∈ l, monomialFactors q.1 = .error f := by
  rw [sortTerms_eq] at h
  cases hk : l.mapM (keyed t) with
  | ok ks =>
      rw [hk] at h
      cases h
  | error g =>
      rw [hk] at h
      cases h
      obtain ⟨q, hq, hqf⟩ := exists_of_mapM_error hk
      refine ⟨q, hq, termKey_error (t := t) ?_⟩
      unfold keyed at hqf
      cases hkey : TermKey.of t q.1 with
      | error g' =>
          rw [hkey] at hqf
          cases hqf
          rfl
      | ok key =>
          rw [hkey] at hqf
          cases hqf

theorem sortTerms_perm {t : DefinitionTable} {l l' : Tally} (h : sortTerms t l = .ok l') :
    l'.Perm l := by
  rw [sortTerms_eq] at h
  cases hk : l.mapM (keyed t) with
  | error g =>
      rw [hk] at h
      cases h
  | ok ks =>
      rw [hk] at h
      cases h
      rw [← map_snd_of_keyed hk]
      exact (List.mergeSort_perm ks _).map _

theorem filter_bareTally (l : Tally) :
    (bareTally l).filter (fun q => !q.2.isZero) = bareTally (l.filter fun q => !q.2.isZero) := by
  rw [bareTally, List.filter_map]
  rfl

/-! ## What the steps of `add` give -/

/-- The last step of `add`. -/
def assembleSum (constant : Number) (summands : List Expr) : Action Expr := do
  let summands ←
    if !constant.isZero || summands.isEmpty then
      pure (summands ++ [← makeNumber constant])
    else pure summands
  match summands with
  | [e] => return e
  | es => apply "Add" es

/-- `add` in its steps. -/
theorem add_eq (ops : List Expr) :
    add ops = (do
      if !Expr.allValid (Expr.flatten (some "Add") ops) then
        apply "Add" (Expr.flatten (some "Add") ops)
      else
        let s ← collectTerms (Expr.flatten (some "Add") ops) {}
        if s.constant.isNaN then makeNumber s.constant
        else
          let terms ← ofExcept
            (sortTerms (← getTable) (s.monomials.filter fun q => !q.2.isZero))
          let summands ← terms.mapM fun q => do mul [← makeNumber q.2, q.1]
          assembleSum s.constant summands) := rfl

/-- A product of a number and other than one factor. -/
theorem splitOf_bare_product (v : Number) (rest : List Expr) (d : Option Nat) (c : Bool)
    (h : rest.length ≠ 1) :
    splitOf (Expr.application "Multiply" (.number v :: rest) d c).bare =
      .ok (v, some (.node "Multiply" (rest.map Expr.bare))) := by
  rw [Expr.bare_application]
  rcases rest with _ | ⟨m, _ | ⟨m', rest⟩⟩
  · rfl
  · exact absurd rfl h
  · rfl

/-- What has no coefficient has none without its definition. -/
theorem splitOf_bare_whole {e : Expr} (hnumber : e.isNumber = false)
    (hnegation : e.isApplicationOf "Negate" = false)
    (hfactor : e.isApplicationOf "Multiply" = true →
      ∃ x rest, e.operands = x :: rest ∧ x.isNumber = false) :
    splitOf e.bare = .ok (.one, some e.bare) := by
  cases e with
  | number v => cases hnumber
  | symbol n d c => rfl
  | error code details operand => rfl
  | application f ops d c =>
      simp only [Expr.isApplicationOf] at hnegation hfactor
      rw [Expr.bare_application, Expr.node]
      unfold splitOf
      simp only [hnegation, Bool.false_eq_true, if_false]
      split
      next hf =>
        obtain ⟨x, rest, rfl, hx⟩ := hfactor hf
        cases x with
        | number v => cases hx
        | _ => rfl
      next => rfl

namespace Realm

variable {R : Realm} {E : Fault → Prop} {k : Kernel}

theorem yields_splitCoefficient {e : Expr} (hk : R.Holds k) (he : R.Good e) :
    Yields (fun f => R.Split e.bare (.error f)) (splitCoefficient e) k fun s k' =>
      R.Holds k' ∧ s.1.isProper = true ∧ (∀ m, s.2 = some m → R.Good m) ∧
        R.Split e.bare (.ok (s.1, s.2.map Expr.bare)) := by
  obtain ⟨split, heq, hsplits⟩ := exists_splits e
  rw [heq]
  refine Yields.bind ((yields_mul hk (by simpa using he)).imp ?_ fun _ _ h => h) ?_
  · intro f hf
    exact ⟨_, hf, rfl⟩
  rintro p k' ⟨hk', hp, hproduct⟩
  have hsplit : ∀ {o}, splitOf p.bare = o → R.Split e.bare o := fun h => ⟨_, hproduct, h.symm⟩
  have h := hsplits p
  generalize split p = a at h ⊢
  cases h with
  | number v => exact Yields.pure ⟨hk', R.proper hp, by simp, hsplit rfl⟩
  | negation m rest d c =>
      have hm := R.good_operand hp m (by simp)
      exact Yields.pure ⟨hk', rfl, by simpa using hm, hsplit rfl⟩
  | multiple v m d c =>
      have hops := R.good_operand hp
      exact Yields.pure ⟨hk', R.proper (hops (.number v) (by simp)), by simpa using hops m (by simp),
        hsplit rfl⟩
  | product v rest d c hrest =>
      have hops := R.good_operand hp
      rw [List.forall_mem_cons] at hops
      refine (yields_apply hk' (by decide) hops.2).bind fun m k'' h => ?_
      refine Yields.pure ⟨h.1, R.proper hops.1, by simpa using h.2.1, hsplit ?_⟩
      rw [Option.map_some, h.2.2]
      exact splitOf_bare_product v rest d c hrest
  | empty d c hf => obtain rfl | rfl := hf <;> exact hsplit rfl
  | whole _ hnumber hnegation hfactor =>
      exact Yields.pure ⟨hk', rfl, by simpa using hp,
        hsplit (splitOf_bare_whole hnumber hnegation hfactor)⟩

/-- Terms in the realm, with proper coefficients. -/
structure GoodTerms (R : Realm) (s : Terms) : Prop where
  constant : s.constant.isProper = true
  monomials : ∀ q ∈ s.monomials, R.Good q.1 ∧ q.2.isProper = true

/-- **Summands are collected into their terms.** -/
theorem yields_collectTerms : ∀ {es : List Expr} {s : Terms} {k : Kernel}, R.Holds k →
    (∀ e ∈ es, R.Good e) → R.GoodTerms s →
    Yields (fun f => R.Collected (es.map Expr.bare) s.bare (.error f)) (collectTerms es s) k
      fun s' k' => R.Holds k' ∧ R.GoodTerms s' ∧ R.Collected (es.map Expr.bare) s.bare (.ok s'.bare)
  | [], s, k, hk, _, hs => Yields.pure ⟨hk, hs, .nil⟩
  | e :: rest, s, k, hk, hes, hs => by
      rw [List.forall_mem_cons] at hes
      refine Yields.bind ((yields_splitCoefficient hk hes.1).imp (fun f hf => .fault hf)
        fun _ _ h => h) ?_
      rintro ⟨v, m⟩ k' ⟨hk', hv, hm, hsplit⟩
      cases m with
      | none =>
          obtain ⟨c, hc, hproper⟩ := Number.add_isProper (Number.isExact_of_isProper hs.constant)
            (Number.isExact_of_isProper hv)
          have hs' : R.GoodTerms { s with constant := c } := ⟨hproper, hs.monomials⟩
          refine Yields.bind (P := fun c' k'' => c' = c ∧ R.Holds k'')
            (yields_number_ok hc ⟨rfl, hk'⟩) ?_
          rintro _ k'' ⟨rfl, hk''⟩
          refine (yields_collectTerms hk'' hes.2 hs').imp ?_ ?_
          · exact fun f hf => .constant hsplit hc hf
          · exact fun s' k₃ h => ⟨h.1, h.2.1, .constant hsplit hc h.2.2⟩
      | some m =>
          obtain ⟨l, hl, hgood⟩ := R.collectable.tally ⟨hm m rfl, hv⟩ hs.monomials
          have hbare : tally m.bare v s.bare.monomials = .ok (bareTally l) := by
            rw [Terms.bare, tally_bare fun q hq => exact (hs.monomials q hq).1, hl]
            rfl
          have hs' : R.GoodTerms { s with monomials := l } := ⟨hs.constant, hgood⟩
          refine Yields.bind (P := fun l' k'' => l' = l ∧ R.Holds k'')
            (yields_number_ok hl ⟨rfl, hk'⟩) ?_
          rintro _ k'' ⟨rfl, hk''⟩
          refine (yields_collectTerms hk'' hes.2 hs').imp ?_ ?_
          · exact fun f hf => .monomial hsplit hbare hf
          · exact fun s' k₃ h => ⟨h.1, h.2.1, .monomial hsplit hbare h.2.2⟩

theorem yields_assembleSum {c : Number} {summands : List Expr} (hk : R.Holds k)
    (hc : c.isProper = true) (hs : ∀ e ∈ summands, R.Good e) :
    Yields E (assembleSum c summands) k fun r k' =>
      R.Holds k' ∧ R.Good r ∧ r.bare = sumOf c (summands.map Expr.bare) := by
  have happly : ∀ {es : List Expr} {k}, R.Holds k → (∀ e ∈ es, R.Good e) →
      Yields E (match es with | [e] => pure e | es => apply "Add" es) k fun r k' =>
        R.Holds k' ∧ R.Good r ∧ r.bare = bareSum (es.map Expr.bare) := by
    intro es k hk hes
    rcases es with _ | ⟨e, _ | ⟨e', rest⟩⟩
    · exact yields_apply hk (by decide) hes
    · exact Yields.pure ⟨hk, hes e (by simp), rfl⟩
    · exact yields_apply hk (by decide) hes
  unfold assembleSum sumOf
  rw [List.isEmpty_map]
  split
  next =>
    refine (yields_makeNumber hk hc).bind fun n k' h => ?_
    obtain ⟨hk', rfl⟩ := h
    have hall : ∀ e ∈ summands ++ [.number c], R.Good e :=
      List.forall_mem_append.2 ⟨hs, by simpa using R.good_number hc⟩
    refine (happly hk' hall).mono fun r k'' h => ⟨h.1, h.2.1, ?_⟩
    rw [h.2.2, List.map_append]
    rfl
  next => exact happly hk hs

/-- **`add` gives a sum of its flattened operands**, or the fault that this sum has. -/
theorem yields_add {ops : List Expr} (hk : R.Holds k) (hops : ∀ e ∈ ops, R.Good e) :
    Yields (fun f => R.Sum (Expr.flatten (some "Add") (ops.map Expr.bare)) (.error f)) (add ops) k
      fun r k' => R.Holds k' ∧ R.Good r ∧
        R.Sum (Expr.flatten (some "Add") (ops.map Expr.bare)) (.ok r.bare) := by
  have hes := R.good_flatten (a := some "Add") hops
  rw [add_eq, Expr.flatten_map_bare]
  simp only [valid hes, Bool.not_true, Bool.false_eq_true, if_false]
  have hempty : R.GoodTerms {} := ⟨rfl, by simp⟩
  refine Yields.bind ((yields_collectTerms hk hes hempty).imp ?_ fun _ _ h => h) ?_
  · exact fun f hf => .inl ⟨f, hf, rfl⟩
  rintro s k ⟨hk, hs, hcollected⟩
  have hgood : ∀ q ∈ s.monomials.filter fun q => !q.2.isZero, R.Good q.1 ∧ q.2.isProper = true :=
    fun q hq => hs.monomials q (List.mem_filter.1 hq).1
  -- a fault of one term is a fault of the whole sum
  have hfault : ∀ {f q}, q ∈ (s.monomials.filter fun q => !q.2.isZero) →
      (monomialFactors q.1.bare = .error f ∨
        R.FlatProduct [.number q.2, q.1.bare] (.error f)) →
      R.Sum ((Expr.flatten (some "Add") ops).map Expr.bare) (.error f) := by
    intro f q hq h
    obtain ⟨hmem, hz⟩ := List.mem_filter.1 hq
    refine .inr ⟨s.bare, hcollected, .inl ⟨f, rfl, (q.1.bare, q.2), ?_, by simpa using hz, h⟩⟩
    exact List.mem_map_of_mem hmem
  rw [if_neg (by simp [Number.isNaN_of_isExact (Number.isExact_of_isProper hs.constant)])]
  refine Yields.bind (P := fun t k' => t = R.table ∧ R.Holds k')
    (yields_getTable ⟨hk.table, hk⟩) ?_
  rintro _ k ⟨rfl, hk⟩
  refine Yields.bind (P := fun terms k' =>
    sortTerms R.table (s.monomials.filter fun q => !q.2.isZero) = .ok terms ∧ R.Holds k')
    (yields_ofExcept (fun f hf => ?_) fun terms h => ⟨h, hk⟩) ?_
  · obtain ⟨q, hq, hqf⟩ := exists_of_sortTerms_error hf
    exact hfault hq (.inl (by rw [monomialFactors_bare, hqf]; rfl))
  rintro terms k ⟨hterms, hk⟩
  have hperm := sortTerms_perm hterms
  have harranged := R.arrangedTerms (fun q hq => (hgood q hq).1) hterms
  refine Yields.bind (P := fun es k' => R.Holds k' ∧ List.Forall₂ (fun q e => R.Good e ∧
    R.FlatProduct [.number q.2, q.1.bare] (.ok e.bare)) terms es) (Yields.mapM hk ?_) ?_
  · intro q hq k hk
    have hq' := hperm.mem_iff.1 hq
    refine (yields_makeNumber hk (hgood q hq').2).bind fun n k' h => ?_
    obtain ⟨hk', rfl⟩ := h
    have hops : ∀ e ∈ [.number q.2, q.1], R.Good e := by
      simpa using ⟨R.good_number (hgood q hq').2, (hgood q hq').1⟩
    exact (yields_mul hk' hops).imp (fun f hf => hfault hq' (.inr hf))
      fun r k'' h => ⟨h.1, h.2.1, h.2.2⟩
  rintro es k ⟨hk, hsummands⟩
  obtain ⟨hes, hproducts⟩ := (List.forall₂_and_left _ _).1 hsummands.flip
  refine (yields_assembleSum hk hs.constant hes).mono fun r k' h => ⟨h.1, h.2.1, ?_⟩
  rw [h.2.2]
  refine .inr ⟨s.bare, hcollected, .inr ⟨bareTally terms, es.map Expr.bare, ?_, ?_, rfl⟩⟩
  · rw [Terms.bare, filter_bareTally]
    exact harranged
  · rw [bareTally, List.forall₂_map_left_iff, List.forall₂_map_right_iff]
    exact hproducts.flip

end Realm

end SymbolicAlgebra.Kernel
