import SymbolicAlgebra.Proofs.KeyOrder
import SymbolicAlgebra.Proofs.Recall
import SymbolicAlgebra.Proofs.Standard

/-!
# Proofs/Comparison — comparing two expressions

A comparison reads two real values and then decides by the values or by the structure
(`compare?_eq`).  Compared the other way round, right after, both values are recalled, and the
verdict is the opposite one (`comparison_antisymm`).  The exception are two arrangements of the same
operands whose first difference is between operands with equal keys: each is then put after the
other.  Keys drop the operand of an error, so that such arrangements exist
(`comparison_of_errors`).
-/

namespace SymbolicAlgebra.Kernel

/-- Compares two expressions by their structure: the same, or two arrangements of the same
operands. -/
def compareStructure (t : DefinitionTable) (a b : Expr) : Option Int :=
  if a.same b then some 0
  else if a.isApplication && b.isApplication && a.operator == b.operator &&
      sameMultiset a.operands b.operands then tieBreak t a.operands b.operands
  else none

/-- Compares two expressions by their real values if both have one, by their structure otherwise. -/
def compareWith (t : DefinitionTable) (a b : Expr) : Option Scalar → Option Scalar → Option Int
  | some x, some y => x.compare? y
  | _, _ => compareStructure t a b

theorem compare?_eq (a b : Expr) :
    compare? a b = do
      let x ← realValue a
      let y ← realValue b
      return compareWith (← getTable) a b x y := by
  unfold compare?
  refine bind_congr fun x => bind_congr fun y => ?_
  have hstructure : (do
      if a.same b then return some 0
      if a.isApplication && b.isApplication && a.operator == b.operator &&
          sameMultiset a.operands b.operands then
        return tieBreak (← getTable) a.operands b.operands
      return none : Action (Option Int)) = do return compareStructure (← getTable) a b := by
    unfold compareStructure
    split
    next => rfl
    next => split <;> rfl
  rcases x with _ | x <;> rcases y with _ | y
  · exact hstructure
  · exact hstructure
  · exact hstructure
  · rfl

/-! ## The other way round -/

theorem order_swap {α : Type} [LT α] [DecidableLT α] [h : Std.Asymm (α := α) (· < ·)] (x y : α) :
    Scalar.order y x = -Scalar.order x y := by
  unfold Scalar.order
  by_cases hxy : x < y
  · simp [hxy, h.asymm x y hxy]
  · by_cases hyx : y < x
    · simp [hxy, hyx]
    · simp [hxy, hyx]

theorem scalar_compare?_swap (x y : Scalar) : y.compare? x = (x.compare? y).map (-·) := by
  unfold Scalar.compare?
  rw [Bool.or_comm y.isNaN, Bool.and_comm y.isFinite]
  split
  next => rfl
  next =>
    split
    next => rw [order_swap x.toRat, Option.map_some]
    next => rw [order_swap x.toFloat, Option.map_some]

/-- Whether keys leave a tie as it is: the first operands that differ have equal keys. -/
def isTied (t : DefinitionTable) : List Expr → List Expr → Bool
  | x :: xs, y :: ys =>
      if x.same y then isTied t xs ys else OrderKey.compare (.of t x) (.of t y) == .eq
  | _, _ => false

theorem tieBreak_of_isTied {t : DefinitionTable} : ∀ {xs ys : List Expr}, isTied t xs ys = true →
    tieBreak t xs ys = some 1 ∧ tieBreak t ys xs = some 1
  | [], _, h => by cases h
  | _ :: _, [], h => by cases h
  | x :: xs, y :: ys, h => by
      rw [isTied] at h
      rw [tieBreak, tieBreak, Expr.same_comm y x]
      split at h
      next hsame =>
        rw [if_pos hsame, if_pos hsame]
        exact tieBreak_of_isTied h
      next hsame =>
        rw [beq_iff_eq] at h
        rw [if_neg hsame, if_neg hsame, OrderKey.compare_swap (.of t x), h]
        exact ⟨rfl, rfl⟩

theorem tieBreak_swap {t : DefinitionTable} : ∀ {xs ys : List Expr}, isTied t xs ys = false →
    tieBreak t ys xs = (tieBreak t xs ys).map (-·)
  | [], [], _ => rfl
  | [], _ :: _, _ => rfl
  | _ :: _, [], _ => rfl
  | x :: xs, y :: ys, h => by
      rw [isTied] at h
      rw [tieBreak, tieBreak, Expr.same_comm y x]
      split at h
      next hsame =>
        rw [if_pos hsame, if_pos hsame]
        exact tieBreak_swap h
      next hsame =>
        rw [if_neg hsame, if_neg hsame, OrderKey.compare_swap (.of t x)]
        cases hkey : OrderKey.compare (.of t x) (.of t y) with
        | lt => rfl
        | gt => rfl
        | eq =>
            rw [hkey] at h
            cases h

/-- Keys break every tie between valid operands with exact literals. -/
theorem isTied_of_isExact {t : DefinitionTable} : ∀ {xs ys : List Expr},
    Expr.allOver Number.isExact xs = true → Expr.allOver Number.isExact ys = true →
    isTied t xs ys = false
  | [], _, _, _ => by rw [isTied.eq_def]
  | _ :: _, [], _, _ => by rw [isTied.eq_def]
  | x :: xs, y :: ys, hx, hy => by
      rw [Expr.allOver, Bool.and_eq_true] at hx hy
      rw [isTied]
      split
      next => exact isTied_of_isExact hx.2 hy.2
      next hsame =>
        rw [beq_eq_false_iff_ne]
        exact fun hkey => hsame (OrderKey.same_of_compare hx.1 hy.1 hkey)

/-- Whether two expressions are arrangements of the same operands that keys cannot tell apart. -/
def areConfused (t : DefinitionTable) (a b : Expr) : Bool :=
  a.isApplication && b.isApplication && a.operator == b.operator &&
    sameMultiset a.operands b.operands && isTied t a.operands b.operands

theorem areConfused_of_isExact {t : DefinitionTable} {a b : Expr} (ha : a.isExact = true)
    (hb : b.isExact = true) : areConfused t a b = false := by
  have hoperands : ∀ {e : Expr}, e.isExact = true →
      Expr.allOver Number.isExact e.operands = true := by
    intro e he
    cases e with
    | application f ops d c => exact he
    | _ => rfl
  rw [areConfused, isTied_of_isExact (hoperands ha) (hoperands hb), Bool.and_false]

theorem compareStructure_swap {t : DefinitionTable} (a b : Expr) :
    compareStructure t b a = (compareStructure t a b).map (-·) ∨
      areConfused t a b = true ∧ compareStructure t a b = some 1 ∧
        compareStructure t b a = some 1 := by
  unfold compareStructure areConfused
  rw [Expr.same_comm b a, Bool.and_comm b.isApplication, Bool.beq_comm (a := b.operator),
    sameMultiset_comm b.operands]
  split
  next => exact .inl rfl
  next =>
    split
    next hoperands =>
      rw [hoperands, Bool.true_and]
      cases htie : isTied t a.operands b.operands with
      | true => exact .inr ⟨rfl, tieBreak_of_isTied htie⟩
      | false => exact .inl (tieBreak_swap htie)
    next => exact .inl rfl

theorem compareWith_swap {t : DefinitionTable} (a b : Expr) (x y : Option Scalar) :
    compareWith t b a y x = (compareWith t a b x y).map (-·) ∨
      areConfused t a b = true ∧ compareWith t a b x y = some 1 ∧ compareWith t b a y x = some 1 := by
  rcases x with _ | x <;> rcases y with _ | y
  · exact compareStructure_swap a b
  · exact compareStructure_swap a b
  · exact compareStructure_swap a b
  · exact .inl (scalar_compare?_swap x y)

/-- Compared the other way round, right after, two expressions have the same two values. -/
theorem run_compare?_swap {k k₁ : Kernel} {a b : Expr} {c : Option Int}
    (ha : a.isCanonical = true) (hb : b.isCanonical = true)
    (h : (compare? a b).run.run k = (.ok c, k₁)) :
    ∃ x y, c = compareWith k₁.table a b x y ∧
      (compare? b a).run.run k₁ = (.ok (compareWith k₁.table b a y x), k₁) := by
  have hvalues : Yields Anyhow (compare? a b) k fun c k₁ => ∃ x y,
      c = compareWith k₁.table a b x y ∧
        (compare? b a).run.run k₁ = (.ok (compareWith k₁.table b a y x), k₁) := by
    rw [compare?_eq]
    refine (recalls_realValue ha k).bind fun x k₂ hx => ?_
    refine (recalls_realValue hb k₂).bind fun y k₃ hy => ?_
    refine ⟨x, y, rfl, ?_⟩
    rw [compare?_eq, run_bind, hy.2 k₃ (.refl k₃)]
    simp only
    rw [run_bind, hx.2 k₃ hy.1]
    rfl
  exact hvalues.of_run h

/-- **Comparison is antisymmetric**, unless it is between two arrangements of the same operands that
keys cannot tell apart.  Valid expressions with exact literals always can. -/
theorem comparison_antisymm (k : Kernel) (a b : Expr) (ha : a.isCanonical = true)
    (hb : b.isCanonical = true) (c : Option Int) (k₁ : Kernel)
    (h : (compare? a b).run.run k = (.ok c, k₁)) :
    ∃ c', (compare? b a).run.run k₁ = (.ok c', k₁) ∧
      (c' = c.map (-·) ∨ areConfused k₁.table a b = true ∧ c = some 1 ∧ c' = some 1) ∧
      (a.isExact = true → b.isExact = true → c' = c.map (-·)) := by
  obtain ⟨x, y, rfl, hr⟩ := run_compare?_swap ha hb h
  refine ⟨_, hr, compareWith_swap a b x y, fun hae hbe => ?_⟩
  refine (compareWith_swap a b x y).resolve_right fun hconfused => ?_
  rw [areConfused_of_isExact hae hbe] at hconfused
  cases hconfused.1

/-- `1 + x`. -/
def oneFirst : Expr := .application "Add" [.number .one, .symbol "x" none true] (some 6) true

/-- `x + 1`. -/
def oneLast : Expr := .application "Add" [.symbol "x" none true, .number .one] (some 6) true

theorem comparison_antisymm_arrangements :
    ∃ k₁, (compare? oneFirst oneLast).run.run standard = (.ok (some (-1)), k₁) ∧
      (compare? oneLast oneFirst).run.run k₁ = (.ok (some 1), k₁) := by
  obtain ⟨c, k₁, hr, hc⟩ := run_of_any (x := compare? oneFirst oneLast) (k := standard)
    (p := (· == some (-1))) (by rw [standard_eq]; decide +kernel)
  rw [beq_iff_eq.1 hc] at hr
  obtain ⟨c', hr', -, hexact⟩ := comparison_antisymm standard oneFirst oneLast (by decide)
    (by decide) (some (-1)) k₁ hr
  rw [hexact (by decide) (by decide)] at hr'
  exact ⟨k₁, hr, hr'⟩

/-- **Each of two sums of the same errors comes after the other.** -/
theorem comparison_of_errors :
    ∃ a k₁ b k₂ k₃ k₄,
      (box (.list [.name "Add", .name "True", .name "False"])).run.run standard = (.ok a, k₁) ∧
      (box (.list [.name "Add", .name "False", .name "True"])).run.run k₁ = (.ok b, k₂) ∧
      (a.isCanonical && b.isCanonical) = true ∧
      (compare? a b).run.run k₂ = (.ok (some 1), k₃) ∧
      (compare? b a).run.run k₃ = (.ok (some 1), k₄) := by
  obtain ⟨r, k₄, hr, h⟩ := run_of_any (k := standard)
    (p := fun r : Expr × Expr × Option Int × Option Int =>
      (r.1.isCanonical && r.2.1.isCanonical) && (r.2.2 == (some 1, some 1)))
    (x := do
      let a ← box (.list [.name "Add", .name "True", .name "False"])
      let b ← box (.list [.name "Add", .name "False", .name "True"])
      let c ← compare? a b
      let c' ← compare? b a
      return (a, b, c, c'))
    (by rw [standard_eq]; decide +kernel)
  obtain ⟨a, k₁, ha, hr⟩ := exists_run_of_bind hr
  obtain ⟨b, k₂, hb, hr⟩ := exists_run_of_bind hr
  obtain ⟨c, k₃, hc, hr⟩ := exists_run_of_bind hr
  obtain ⟨c', k₄, hc', hr⟩ := exists_run_of_bind hr
  cases hr
  rw [Bool.and_eq_true, beq_iff_eq, Prod.mk.injEq] at h
  obtain ⟨hcanonical, rfl, rfl⟩ := h
  exact ⟨a, k₁, b, k₂, k₃, k₄, ha, hb, hcanonical, hc, hc'⟩

end SymbolicAlgebra.Kernel
