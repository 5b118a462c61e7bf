import Mathlib.Logic.Function.Iterate
import SymbolicAlgebra.Proofs.Repetition
import SymbolicAlgebra.Proofs.Standard
import SymbolicAlgebra.Rewriting.Rule

/-!
# Proofs/RootRewriting — rewriting at the root is an iteration

Rules that are functions of the expression (`ArePure`) have a first one that changes it, if there is
any; `advance` makes the change of that rule.  `replace` iterates `advance` until nothing changes, or
as often as its bound says (`replace_iterates`).  It looks at the bound after a rewrite only, so that
it rewrites once even if it may not rewrite at all (`replace_beyond_bound`).
-/

namespace SymbolicAlgebra.Kernel

variable {φ : Rule → Expr → Option Expr} {rules : List Rule} {I : Kernel → Expr → Prop}
  {e : Expr} {k : Kernel}

/-! ## The iteration -/

/-- What the first rule that changes an expression makes of it, where `φ` says what rules do. -/
def changed? (φ : Rule → Expr → Option Expr) (rules : List Rule) (e : Expr) : Option Expr :=
  rules.findSome? fun r => (φ r e).filter fun e' => !e'.same e

/-- The next expression; where no rule changes anything, the expression itself. -/
def advance (φ : Rule → Expr → Option Expr) (rules : List Rule) (e : Expr) : Expr :=
  (changed? φ rules e).getD e

theorem changed?_eq_none_iff :
    changed? φ rules e = none ↔ ∀ r ∈ rules, ∀ e', φ r e = some e' → e'.same e = true := by
  rw [changed?, List.findSome?_eq_none_iff]
  refine forall₂_congr fun r _ => ?_
  rw [Option.filter_eq_none_iff]
  simp

theorem changed?_cons {r : Rule} : changed? φ (r :: rules) e =
    ((φ r e).filter fun e' => !e'.same e).or (changed? φ rules e) := by
  rw [changed?, List.findSome?_cons]
  cases (φ r e).filter fun e' => !e'.same e <;> rfl

theorem advance_of_none (h : changed? φ rules e = none) : advance φ rules e = e := by
  rw [advance, h]
  rfl

theorem advance_of_some {e' : Expr} (h : changed? φ rules e = some e') :
    advance φ rules e = e' := by
  rw [advance, h]
  rfl

/-- The iteration stays where it stops. -/
theorem iterate_of_none {m n : Nat} (h : changed? φ rules ((advance φ rules)^[m] e) = none)
    (hmn : m ≤ n) : (advance φ rules)^[n] e = (advance φ rules)^[m] e := by
  obtain ⟨d, rfl⟩ := Nat.exists_eq_add_of_le' hmn
  rw [Function.iterate_add_apply]
  exact Function.iterate_fixed (advance_of_none h) d

/-! ## Runs of rules that are functions -/

/-- The rules are functions of the expression, as `φ` says, in every kernel and on every expression
that `I` admits and they lead to. -/
def ArePure (φ : Rule → Expr → Option Expr) (rules : List Rule) (I : Kernel → Expr → Prop) : Prop :=
  ∀ r ∈ rules, ∀ k e, I k e → Yields Never (applyRule r e) k fun o k' =>
    o = φ r e ∧ I k' e ∧ ∀ e', o = some e' → I k' e'

/-- One scan of the rules. -/
theorem yields_replaceOnce (h : ArePure φ rules I) (hk : I k e) :
    Yields Never (replaceOnce rules e) k fun o k' =>
      o = changed? φ rules e ∧ I k' e ∧ ∀ e', o = some e' → I k' e' := by
  induction rules generalizing k with
  | nil => exact Yields.pure ⟨rfl, hk, by simp⟩
  | cons r rest ih =>
      rw [ArePure, List.forall_mem_cons] at h
      rw [replaceOnce, changed?_cons]
      refine (h.1 k e hk).bind ?_
      rintro _ k₁ ⟨rfl, hk₁, hnext⟩
      cases hr : φ r e with
      | none => exact ih h.2 hk₁
      | some e' =>
          simp only
          split
          next hsame =>
            rw [Option.filter_some_neg (by simpa using hsame)]
            exact ih h.2 hk₁
          next hsame =>
            rw [Option.filter_some_pos (by simpa using hsame)]
            exact Yields.pure ⟨rfl, hk₁, fun x hx => hnext x (hr.trans hx)⟩

/-- Whether a number of rewrites reaches a bound. -/
def isReached (bound : Option Int) (count : Nat) : Bool :=
  bound.any fun n => decide (n ≤ (count : Int))

/-- **One step of the loop** is one step of the iteration; it is the last one if nothing changes or
the bound is reached. -/
theorem yields_replaceStep (h : ArePure φ rules I) (hk : I k e) (bound : Option Int) (count : Nat) :
    Yields Never (replaceStep rules bound (count, e)) k fun o k' =>
      (o = if (changed? φ rules e).isNone || isReached bound (count + 1)
        then .inr (advance φ rules e) else .inl (count + 1, advance φ rules e)) ∧
      (isReached bound (count + 1) = false → I k' (advance φ rules e)) := by
  unfold replaceStep
  refine (yields_replaceOnce h hk).bind ?_
  rintro _ k₁ ⟨rfl, hk₁, hnext⟩
  cases hc : changed? φ rules e with
  | none =>
      rw [advance_of_none hc]
      exact Yields.pure ⟨rfl, fun _ => hk₁⟩
  | some e' =>
      rw [advance_of_some hc, Option.isNone_some, Bool.false_or]
      simp only
      change Yields Never (if isReached bound (count + 1) = true then _ else _) k₁ _
      cases hreached : isReached bound (count + 1) with
      | true => exact ⟨rfl, fun h => by cases h⟩
      | false => exact Yields.pure ⟨rfl, fun _ => hnext e' hc⟩

/-- **The loop runs through the iteration**, up to the first expression that no rule changes or the
first number of rewrites that reaches the bound. -/
theorem outcome?_replaceStep (h : ArePure φ rules I) {bound : Option Int} {n : Nat} :
    ∀ {e : Expr} {k : Kernel} {count : Nat}, I k e →
      (∀ i, 0 < i → i < n → isReached bound (count + i) = false) →
      changed? φ rules ((advance φ rules)^[n] e) = none ∨
        0 < n ∧ isReached bound (count + n) = true →
      ∃ k', outcome? (replaceStep rules bound) (count, e) k =
        some (.ok ((advance φ rules)^[n] e), k') := by
  induction n with
  | zero =>
      intro e k count hk _ hend
      obtain hnone : changed? φ rules e = none := hend.resolve_right fun h => absurd h.1 (by simp)
      obtain ⟨o, k', hr, rfl, -⟩ := (yields_replaceStep h hk bound count).exists_run
      rw [hnone, advance_of_none hnone] at hr
      exact ⟨k', outcome?_last hr⟩
  | succ n ih =>
      intro e k count hk hfree hend
      obtain ⟨o, k', hr, rfl, hk'⟩ := (yields_replaceStep h hk bound count).exists_run
      cases hc : changed? φ rules e with
      | none =>
          rw [hc] at hr
          rw [iterate_of_none (m := 0) hc (Nat.zero_le _)]
          rw [advance_of_none hc] at hr
          exact ⟨k', outcome?_last hr⟩
      | some e' =>
          rw [hc, Option.isNone_some, Bool.false_or] at hr
          rw [Function.iterate_succ_apply] at hend ⊢
          cases hreached : isReached bound (count + 1) with
          | true =>
              -- The bound is not reached before the last rewrite.
              obtain rfl : n = 0 := by
                by_contra hn
                rw [hfree 1 (by omega) (by omega)] at hreached
                cases hreached
              rw [hreached] at hr
              exact ⟨k', outcome?_last hr⟩
          | false =>
              rw [hreached] at hr
              rw [outcome?_next hr]
              refine ih (hk' hreached) (fun i hi hin => ?_) (hend.imp_right fun hend => ?_)
              · rw [Nat.add_assoc]
                exact hfree (1 + i) (by omega) (by omega)
              · rcases n with _ | n
                · rw [hend.2] at hreached
                  cases hreached
                · exact ⟨by omega, by rw [Nat.add_assoc, Nat.add_comm 1]; exact hend.2⟩

/-- The expressions of the loop are those of the iteration, and it ends where no rule changes the
expression. -/
theorem yields_replace (h : ArePure φ rules I) (hk : I k e) :
    Yields Anyhow (replace rules none e) k fun r k' =>
      changed? φ rules r = none ∧ I k' r ∧ ∃ m, r = (advance φ rules)^[m] e := by
  refine yields_repeatUntil (I := fun s k' => I k' s.2 ∧ ∃ m, s.2 = (advance φ rules)^[m] e)
    trivial ?_ ⟨hk, 0, rfl⟩
  rintro ⟨count, e'⟩ k' ⟨hk', m, rfl⟩
  refine (yields_replaceStep h hk' none count).imp (fun _ h => h.elim) ?_
  rintro _ k'' ⟨rfl, hk''⟩
  have hI := hk'' rfl
  cases hc : changed? φ rules ((advance φ rules)^[m] e) with
  | none =>
      rw [advance_of_none hc] at hI ⊢
      exact ⟨hc, hI, m, rfl⟩
  | some e'' => exact ⟨hI, m + 1, by rw [Function.iterate_succ_apply']⟩

/-- Without a bound, the loop ends with the first expression that no rule changes. -/
theorem run_replace (h : ArePure φ rules I) (hk : I k e) {m : Nat}
    (hm : changed? φ rules ((advance φ rules)^[m] e) = none) :
    ∃ k', (replace rules none e).run.run k = (.ok ((advance φ rules)^[m] e), k') ∧
      I k' ((advance φ rules)^[m] e) := by
  obtain ⟨k', hend⟩ : ∃ k', outcome? (replaceStep rules none) (0, e) k =
      some (.ok ((advance φ rules)^[m] e), k') :=
    outcome?_replaceStep h hk (fun _ _ _ => rfl) (.inl hm)
  have hrun := run_repeatUntil hend
  exact ⟨k', hrun, ((yields_replace h hk).of_run hrun).2.1⟩

/-! ## The main result -/

/-- **Rewriting at the root is the bounded iteration of the first rule that changes anything.**  It
ends with the `n`-th expression for the bound `n`, or with the last one if that comes earlier, which
no rule changes; without a bound it ends with the last one, and only if there is one.  The bound `0`
allows one rewrite. -/
theorem replace_iterates (h : ArePure φ rules I) (hk : I k e) :
    (∀ n : Nat, n ≠ 0 → ∃ k', (replace rules (some n) e).run.run k =
      (.ok ((advance φ rules)^[n] e), k')) ∧
    (∃ k', (replace rules (some 0) e).run.run k = (.ok (advance φ rules e), k')) ∧
    (∀ m, changed? φ rules ((advance φ rules)^[m] e) = none →
      (∃ k', (replace rules none e).run.run k = (.ok ((advance φ rules)^[m] e), k')) ∧
      ∀ n, m ≤ n → (advance φ rules)^[n] e = (advance φ rules)^[m] e ∧
        ∀ r ∈ rules, ∀ e', φ r ((advance φ rules)^[n] e) = some e' →
          e'.same ((advance φ rules)^[n] e) = true) ∧
    ∀ r k', (replace rules none e).run.run k = (.ok r, k') →
      ∃ m, changed? φ rules ((advance φ rules)^[m] e) = none ∧ r = (advance φ rules)^[m] e := by
  refine ⟨fun n hn => ?_, ?_, fun m hm => ⟨?_, fun n hmn => ?_⟩, fun r k' hr => ?_⟩
  · obtain ⟨k', hend⟩ : ∃ k', outcome? (replaceStep rules (some n)) (0, e) k =
        some (.ok ((advance φ rules)^[n] e), k') :=
      outcome?_replaceStep h hk (fun i _ hin => by simpa [isReached] using hin)
        (.inr ⟨by omega, by simp [isReached]⟩)
    exact ⟨k', run_repeatUntil hend⟩
  · obtain ⟨k', hend⟩ : ∃ k', outcome? (replaceStep rules (some 0)) (0, e) k =
        some (.ok ((advance φ rules)^[1] e), k') :=
      outcome?_replaceStep h hk (fun i _ _ => by omega) (.inr ⟨by simp, by simp [isReached]⟩)
    exact ⟨k', run_repeatUntil hend⟩
  · obtain ⟨k', hrun, -⟩ := run_replace h hk hm
    exact ⟨k', hrun⟩
  · rw [iterate_of_none hm hmn]
    exact ⟨rfl, changed?_eq_none_iff.1 hm⟩
  · obtain ⟨hnone, -, m, rfl⟩ := (yields_replace h hk).of_run hr
    exact ⟨m, hnone, rfl⟩

/-! ## Rules that build nothing -/

/-- What a replacement that is a symbol or has no wildcards becomes when what is bound is put in. -/
def readLeaf (b : Bindings) : Expr → Expr
  | .symbol n d c =>
      if Expr.isWildcardName n then (b.lookup n).getD (.symbol n d c) else .symbol n d c
  | e => e

/-- What a rule that builds nothing does. -/
def takeOut (r : Rule) (e : Expr) : Option Expr :=
  (Pattern.match? {} r.lhs e).map (readLeaf · r.rhs)

mutual

/-- Whether no wildcard occurs. -/
def isFixed : Expr → Bool
  | .symbol n _ _ => !Expr.isWildcardName n
  | .application f ops _ _ => !Expr.isWildcardName f && areFixed ops
  | _ => true

def areFixed : List Expr → Bool
  | [] => true
  | e :: rest => isFixed e && areFixed rest

end

mutual

/-- Whether no wildcard stands in the place of an operator. -/
def hasFixedOperators : Expr → Bool
  | .application f ops _ _ => !Expr.isWildcardName f && haveFixedOperators ops
  | _ => true

def haveFixedOperators : List Expr → Bool
  | [] => true
  | e :: rest => hasFixedOperators e && haveFixedOperators rest

end

/-- Whether a rule has no guard, knows the operators it looks for, and takes out a part of what it
matches or always gives the same. -/
def buildsNothing (r : Rule) : Bool :=
  r.guard.isNone && hasFixedOperators r.lhs && (!r.rhs.isApplication || isFixed r.rhs)

theorem identical_refl_number (v : Number) : v.identical v = true := by
  rcases v with (_ | _ | _) | ⟨_ | _ | _, _ | _ | _⟩ <;> simp [Number.identical, Scalar.identical]

mutual

theorem identical_refl : ∀ e : Expr, e.identical e = true
  | .number v => identical_refl_number v
  | .symbol _ _ _ => by simp [Expr.identical]
  | .error _ _ none => by simp [Expr.identical]
  | .error _ _ (some x) => by simp [Expr.identical, identical_refl x]
  | .application _ ops _ _ => by simp [Expr.identical, identicalAll_refl ops]

theorem identicalAll_refl : ∀ es : List Expr, Expr.identicalAll es es = true
  | [] => rfl
  | e :: rest => by simp [Expr.identicalAll, identical_refl e, identicalAll_refl rest]

end

mutual

theorem substitute_of_isFixed {b : Bindings} : ∀ {x : Expr}, isFixed x = true →
    substitute b x = pure x
  | .number _, _ => by rw [substitute]; all_goals simp
  | .error _ _ _, _ => by rw [substitute]; all_goals simp
  | .symbol n d c, h => by
      rw [isFixed, Bool.not_eq_true'] at h
      simp [substitute, h]
  | .application f ops d c, h => by
      rw [isFixed, Bool.and_eq_true, Bool.not_eq_true'] at h
      rw [substitute, substituteAll_of_areFixed h.2]
      simp [h.1, identicalAll_refl]

theorem substituteAll_of_areFixed {b : Bindings} : ∀ {xs : List Expr}, areFixed xs = true →
    substituteAll b xs = pure xs
  | [], _ => rfl
  | x :: rest, h => by
      rw [areFixed, Bool.and_eq_true] at h
      rw [substituteAll, substitute_of_isFixed h.1, substituteAll_of_areFixed h.2]
      rfl

end

theorem substitute_eq_readLeaf {b : Bindings} {x : Expr}
    (hx : x.isApplication = false ∨ isFixed x = true) : substitute b x = pure (readLeaf b x) := by
  cases x with
  | application f ops d c =>
      rw [substitute_of_isFixed (hx.resolve_left (by simp [Expr.isApplication])), readLeaf]
      simp
  | _ => simp [substitute, readLeaf]

mutual

/-- What a pattern with known operators matches does not depend on the definitions. -/
theorem matchFrom?_of_hasFixedOperators (t u : DefinitionTable) : ∀ {p : Expr} (e : Expr)
    (b : Bindings), hasFixedOperators p = true →
      Pattern.matchFrom? t p e b = Pattern.matchFrom? u p e b
  | .number v, e, b, _ => by cases e <;> simp [Pattern.matchFrom?]
  | .symbol n _ _, e, b, _ => by simp [Pattern.matchFrom?]
  | .error _ _ _, e, b, _ => by simp [Pattern.matchFrom?]
  | .application f ps _ _, e, b, h => by
      rw [hasFixedOperators, Bool.and_eq_true, Bool.not_eq_true'] at h
      have hoperator : ∀ (v : DefinitionTable) g, Pattern.matchOperator? v f g b =
          if f == g then some b else none := by
        intro v g
        rw [Pattern.matchOperator?, h.1]
        rfl
      cases e with
      | application g es _ _ =>
          simp only [Pattern.matchFrom?, hoperator]
          split
          · rfl
          · split
            · rfl
            · exact matchAllFrom?_of_haveFixedOperators t u es _ h.2
      | _ => simp [Pattern.matchFrom?]

theorem matchAllFrom?_of_haveFixedOperators (t u : DefinitionTable) : ∀ {ps : List Expr}
    (es : List Expr) (b : Bindings), haveFixedOperators ps = true →
      Pattern.matchAllFrom? t ps es b = Pattern.matchAllFrom? u ps es b
  | [], _, _, _ => by simp [Pattern.matchAllFrom?]
  | _ :: _, [], _, _ => by simp [Pattern.matchAllFrom?]
  | p :: ps, e :: es, b, h => by
      rw [haveFixedOperators, Bool.and_eq_true] at h
      rw [Pattern.matchAllFrom?, Pattern.matchAllFrom?,
        matchFrom?_of_hasFixedOperators t u e b h.1]
      cases Pattern.matchFrom? u p e b with
      | none => rfl
      | some b' => exact matchAllFrom?_of_haveFixedOperators t u es b' h.2

end

/-- **Rules that build nothing are functions of the expression**, in every kernel; they only write to
the journal. -/
theorem arePure_takeOut (h : ∀ r ∈ rules, buildsNothing r = true) {J : Kernel → Prop}
    (hJ : ∀ {k} journal, J k → J { k with journal }) : ArePure takeOut rules fun k _ => J k := by
  intro r hr k e hk
  have hplain := h r hr
  simp only [buildsNothing, Bool.and_eq_true, Option.isNone_iff_eq_none, Bool.or_eq_true,
    Bool.not_eq_true'] at hplain
  obtain ⟨⟨hguard, hlhs⟩, hrhs⟩ := hplain
  refine Yields.bind (P := fun _ k' => J k') hk fun t k' hk' => ?_
  rw [takeOut, Pattern.match?, Pattern.match?, matchFrom?_of_hasFixedOperators t {} e [] hlhs]
  cases Pattern.matchFrom? {} r.lhs e [] with
  | none => exact Yields.pure ⟨rfl, hk', fun _ _ => hk'⟩
  | some b =>
      have hholds : guardHolds r b = pure true := by rw [guardHolds, hguard]
      simp only [hholds, pure_bind, ↓reduceIte, substitute_eq_readLeaf hrhs]
      exact ⟨rfl, hJ _ hk', fun _ _ => hJ _ hk'⟩

/-- `f(_x) => _x`. -/
def dropF : Rule where
  lhs := .application "f" [.symbol "_x" none true] none true
  rhs := .symbol "_x" none true

/-- `f` as often as wanted, around `a`. -/
def wrapped : Nat → Expr
  | 0 => .symbol "a" none true
  | n + 1 => .application "f" [wrapped n] none true

/-- One `f` is taken away, or all of them. -/
theorem replace_iterates_dropF :
    ArePure takeOut [dropF] (fun _ _ => True) ∧
    (∃ k', (replace [dropF] (some 1) (wrapped 2)).run.run standard = (.ok (wrapped 1), k')) ∧
    (∃ k', (replace [dropF] (some 0) (wrapped 2)).run.run standard = (.ok (wrapped 1), k')) ∧
    ∃ k', (replace [dropF] none (wrapped 2)).run.run standard = (.ok (wrapped 0), k') := by
  have hpure : ArePure takeOut [dropF] fun _ _ => True :=
    arePure_takeOut (by decide +kernel) fun _ h => h
  have hone : advance takeOut [dropF] (wrapped 2) = wrapped 1 :=
    Expr.eq_of_identical (by decide +kernel) (by decide +kernel)
  have htwo : (advance takeOut [dropF])^[2] (wrapped 2) = wrapped 0 :=
    Expr.eq_of_identical (by decide +kernel) (by decide +kernel)
  have hlast : changed? takeOut [dropF] (wrapped 0) = none :=
    Option.isNone_iff_eq_none.1 (by decide +kernel)
  obtain ⟨hbound, hzero, hend, -⟩ := replace_iterates (e := wrapped 2) hpure trivial
  refine ⟨hpure, hone ▸ hbound 1 (by decide), hone ▸ hzero, ?_⟩
  rw [← htwo]
  exact (hend 2 (by rw [htwo]; exact hlast)).1

/-- `p => q`. -/
def pToQ : Rule where
  lhs := .symbol "p" none true
  rhs := .symbol "q" none true

/-- **A rewrite beyond the bound**: `p` is rewritten to `q` although no rewrite is allowed. -/
theorem replace_beyond_bound :
    ArePure takeOut [pToQ] (fun _ _ => True) ∧
    ∃ e k', (replace [pToQ] (some 0) (.symbol "p" none true)).run.run standard = (.ok e, k') ∧
      e.same ((advance takeOut [pToQ])^[0] (.symbol "p" none true)) = false := by
  refine ⟨arePure_takeOut (by decide +kernel) fun _ h => h, ?_⟩
  obtain ⟨o, k', hrun, ho⟩ := run_of_any (k := standard)
    (x := replaceStep [pToQ] (some 0) (0, .symbol "p" none true))
    (p := fun o => o.isRight && o.getRight?.all (!·.same (.symbol "p" none true)))
    (by rw [standard_eq]; decide +kernel)
  cases o with
  | inl s => cases ho
  | inr e => exact ⟨e, k', run_repeatUntil (outcome?_last hrun), by simpa using ho⟩

end SymbolicAlgebra.Kernel
