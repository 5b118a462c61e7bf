import SymbolicAlgebra.Expansion
import SymbolicAlgebra.Proofs.Action

/-!
# Proofs/Steps — what arithmetic and expansion do next

Splitting a term, dividing, raising to a power, inverting, distributing and expanding look at the
shape of their operands and then go on with one action.  Each of the relations below lists these
actions, with what is known of the operands in each case, and the theorem after it says that the
operation is one of them: whatever is proved of an operation is proved step by step, not branch by
branch.
-/

namespace SymbolicAlgebra

/-- Whether an expression is a quotient, a power or an opposite of fewer operands than are looked
at. -/
def Expr.lacksOperand : Expr → Bool
  | .application f ops _ _ =>
      (f == "Divide" || f == "Power") && decide (ops.length < 2) || f == "Negate" && ops.isEmpty
  | _ => false

theorem Expr.eq_number_of_isNumber {e : Expr} (h : e.isNumber = true) : ∃ v, e = .number v := by
  cases e with
  | number v => exact ⟨v, rfl⟩
  | _ => cases h

theorem Expr.eq_number_of_literal {e : Expr} {p : Number → Bool} (h : e.literal?.any p = true) :
    ∃ v, e = .number v ∧ p v = true := by
  cases e with
  | number v => exact ⟨v, rfl, h⟩
  | _ => cases h

theorem Expr.eq_number_of_integer? {e : Expr} {n : Int}
    (h : e.literal?.bind Number.integer? = some n) : ∃ v, e = .number v ∧ v.integer? = some n := by
  cases e with
  | number v => exact ⟨v, rfl, h⟩
  | _ => cases h

theorem DefinitionTable.number?_of_functionNumber? {t : DefinitionTable} {f : String} {i : Nat}
    (h : t.functionNumber? f = some i) : t.number? f = some i := by
  unfold functionNumber? at h
  split at h
  · exact h
  · cases h

/-- A registration that a name has as a function is that of its definition. -/
theorem DefinitionTable.find?_of_functionNumber? {t : DefinitionTable} {f : String} {i : Nat}
    (h : t.functionNumber? f = some i) :
    ∃ d, t.get? i = some (.function d) ∧ t.find? f = some (.function d) := by
  have hi := number?_of_functionNumber? h
  unfold functionNumber? at h
  split at h
  next d hd =>
    rw [find?, hi, Option.bind_some] at hd
    exact ⟨d, hd, by rw [find?, hi, Option.bind_some, hd]⟩
  next => cases h

theorem DefinitionTable.find?_ne_of_functionNumber? {t : DefinitionTable} {f : String}
    (h : t.functionNumber? f = none) (d : FunctionDefinition) : t.find? f ≠ some (.function d) := by
  intro hd
  obtain ⟨i, hi, -⟩ := Option.bind_eq_some_iff.1 hd
  rw [functionNumber?, hd, hi] at h
  cases h

theorem DefinitionTable.contains_of_find? {t : DefinitionTable} {name : String} {d : Definition}
    (h : t.find? name = some d) : t.contains name = true := by
  obtain ⟨i, hi, -⟩ := Option.bind_eq_some_iff.1 h
  rw [contains, hi]
  rfl

theorem DefinitionTable.functionNumber?_of_find?_ne {t : DefinitionTable} {f : String}
    (h : ∀ d, t.find? f ≠ some (.function d)) : t.functionNumber? f = none := by
  unfold functionNumber?
  split
  next d hd => exact absurd hd (h d)
  next => rfl

/-- How many operands a form of its own checks; the other forms check none. -/
def CanonicalForm.arity? : CanonicalForm → Option Nat
  | .negation => some 1
  | .rational | .complexPair => some 2
  | _ => none

namespace Kernel

/-! ## Forms of their own -/

/-- What a form of its own does with the operands that it checked. -/
inductive Forms : CanonicalForm → List Expr → Action (Option Expr) → Prop
  | nothing : Forms .negation [] (throw .operandIndex)
  | opposite (v : Number) (rest : List Expr) :
      Forms .negation (.number v :: rest) (do return some (← makeNumber (← number v.neg)))
  | negated (xs : List Expr) (d : Option Nat) (c : Bool) (rest : List Expr)
      (h : Expr.allValid xs = true) :
      Forms .negation (.application "Negate" xs d c :: rest) (pure xs.head?)
  | negation (e : Expr) (rest : List Expr) (hnumber : e.isNumber = false)
      (h : (e.operator == "Negate" && e.isValid) = false) :
      Forms .negation (e :: rest) (do return some (← apply "Negate" (e :: rest)))
  | quotient (n d : Number) (h : (n.isExact && d.isExact) = true) :
      Forms .rational [.number n, .number d] (do return some (← makeNumber (← number (n.div d))))
  | rational (a b : Expr)
      (h : ∀ n d, a = .number n → b = .number d → (n.isExact && d.isExact) = false) :
      Forms .rational [a, b] (do return some (← apply "Rational" [a, b]))
  | parts (x y : Scalar) :
      Forms .complexPair [.number (.real x), .number (.real y)]
        (do return some (← makeNumber (.ofParts x y)))
  | complex (a b : Expr) (h : ∀ x y, a = .number (.real x) → b ≠ .number (.real y)) :
      Forms .complexPair [a, b] (do return some (← apply "Complex" [a, b]))
  | miscounted {form : CanonicalForm} {rs : List Expr} (hform : form.arity? = some 2)
      (h : rs.length ≠ 2) :
      Forms form rs (throw (if 2 < rs.length then .tooManyOperands 2 else .tooFewOperands 2 rs.length))

theorem two_cases (rs : List Expr) : (∃ a b, rs = [a, b] ∧ two rs = pure (a, b)) ∨
    rs.length ≠ 2 ∧
      two rs = throw (if 2 < rs.length then .tooManyOperands 2 else .tooFewOperands 2 rs.length) := by
  unfold two
  split
  next a b => exact .inl ⟨a, b, rfl, rfl⟩
  next hne =>
    refine .inr ⟨fun h => ?_, rfl⟩
    obtain ⟨a, b, rfl⟩ := List.length_eq_two.1 h
    exact hne a b rfl

/-- **A form of its own** checks its operands and goes on with what the check leaves. -/
theorem exists_forms {form : CanonicalForm} {count : Nat} (h : form.arity? = some count)
    (ops : List Expr) : ∃ step : List Expr → Action (Option Expr),
      buildForm (.canonicalForm form) ops = checkNumeric ops (some count) none >>= step ∧
        ∀ rs, Forms form rs (step rs) := by
  cases form with
  | negation =>
      cases h
      refine ⟨_, rfl, fun rs => ?_⟩
      rcases rs with _ | ⟨e, rest⟩
      · exact .nothing
      · cases e with
        | number v => exact .opposite v rest
        | symbol n d c => exact .negation _ rest rfl rfl
        | error a b x => exact .negation _ rest rfl rfl
        | application f xs d c =>
            simp only
            split
            next h =>
              rw [Bool.and_eq_true, beq_iff_eq] at h
              obtain rfl : f = "Negate" := h.1
              exact .negated xs d c rest h.2
            next h => exact .negation _ rest rfl (Bool.eq_false_iff.2 h)
  | rational =>
      cases h
      refine ⟨_, rfl, fun rs => ?_⟩
      obtain ⟨a, b, rfl, htwo⟩ | ⟨hlength, htwo⟩ := two_cases rs
      · rw [htwo, pure_bind]
        split
        next n d hnd =>
          obtain ⟨rfl, rfl⟩ := Prod.mk.inj hnd
          split
          next h => exact .quotient n d h
          next h =>
            refine .rational _ _ fun n' d' hn hd => ?_
            cases hn
            cases hd
            exact Bool.eq_false_iff.2 h
        next hne => exact .rational a b fun n d hn hd => absurd (Prod.ext hn hd) (hne n d)
      · rw [htwo]
        exact .miscounted rfl hlength
  | complexPair =>
      cases h
      refine ⟨_, rfl, fun rs => ?_⟩
      obtain ⟨a, b, rfl, htwo⟩ | ⟨hlength, htwo⟩ := two_cases rs
      · rw [htwo, pure_bind]
        split
        next x y hxy =>
          obtain ⟨rfl, rfl⟩ := Prod.mk.inj hxy
          exact .parts x y
        next hne => exact .complex a b fun x y hx hy => hne x y (Prod.ext hx hy)
      · rw [htwo]
        exact .miscounted rfl hlength
  | _ => cases h

/-! ## Building -/

/-- A function that is given operands in canonical form: it has a form of its own, or checks them. -/
def applyFunction (f : String) (d : FunctionDefinition) (ops : List Expr) : Action Expr :=
  match d.canonical with
  | none => applyChecked f d ops
  | some form => do
      match ← buildForm form ops with
      | some e => return e
      | none => applyChecked f d ops

/-- What an operator that was met does with its operands: they are built in canonical form, or held as
they stand. -/
def applyMet (f : String) (canonical held : Action (List Expr)) : Option Definition → Action Expr
  | some (.function d) =>
      if d.isLazy.truthy then do apply f (← held) else do applyFunction f d (← canonical)
  | _ => do apply f (← canonical)

/-- How an operator is applied that was met with a definition. -/
inductive Applies (f : String) (canonical held : Action (List Expr)) :
    Option Definition → Action Expr → Prop
  | plain {definition : Option Definition} (h : ∀ d, definition ≠ some (.function d)) :
      Applies f canonical held definition (do apply f (← canonical))
  | held (d : FunctionDefinition) (h : d.isLazy.truthy = true) :
      Applies f canonical held (some (.function d)) (do apply f (← held))
  | function (d : FunctionDefinition) (h : d.isLazy.truthy = false) :
      Applies f canonical held (some (.function d)) (do applyFunction f d (← canonical))

theorem applies (f : String) (canonical held : Action (List Expr)) (definition : Option Definition) :
    Applies f canonical held definition (applyMet f canonical held definition) := by
  unfold applyMet
  split
  next d =>
    split
    next hlazy => exact .held d hlazy
    next hlazy => exact .function d (by simpa using hlazy)
  next hplain => exact .plain fun d h => hplain d h

theorem run_getTable_bind {α : Type} (g : DefinitionTable → Action α) (k : Kernel) :
    (getTable >>= g).run.run k = (g k.table).run.run k := rfl

/-- What meeting a function gives is what the table has then. -/
theorem meetFunction_bind {α : Type} (f : String) (g : Option Nat → Action α) :
    meetFunction f >>= g = (do
      let _ ← meetFunction f
      g ((← getTable).functionNumber? f)) := by
  unfold meetFunction
  simp only [bind_assoc]
  refine congrArg (getTable >>= ·) (funext fun t => ?_)
  split <;> rfl

/-- An operator that matches expressions is not met. -/
theorem build_of_isWildcardName {f : String} (h : Expr.isWildcardName f = true)
    (canonical held : Action (List Expr)) :
    build f canonical held = (do apply f (← canonical)) := by rw [build, if_pos h]

/-- **Building meets the operator, and applies it as the definition says that it has then.** -/
theorem build_eq {f : String} (h : Expr.isWildcardName f = false)
    (canonical held : Action (List Expr)) :
    build f canonical held = (do
      let _ ← meetFunction f
      applyMet f canonical held ((← getTable).find? f)) := by
  rw [build, if_neg (by rw [h]; exact Bool.false_ne_true), meetFunction_bind]
  refine congrArg (meetFunction f >>= ·) (funext fun _ => funext fun k => ?_)
  refine (run_getTable_bind _ k).trans (Eq.trans ?_ (run_getTable_bind _ k).symm)
  cases hi : k.table.functionNumber? f with
  | none =>
      have hne := DefinitionTable.find?_ne_of_functionNumber? hi
      cases hd : k.table.find? f with
      | none => rfl
      | some d =>
          cases d with
          | symbol d => rfl
          | function d => exact absurd hd (hne d)
  | some i =>
      obtain ⟨d, hget, hd⟩ := DefinitionTable.find?_of_functionNumber? hi
      dsimp only
      rw [run_getTable_bind, hget, hd]
      rfl

section Yields

variable {E : Fault → Prop} {k : Kernel}

/-- A function is met as it is registered, or for the first time. -/
theorem yields_meetFunction {f : String} {P : Kernel → Prop} (hkept : k.table.contains f = true → P k)
    (hmet : k.table.contains f = false →
      P { k with table := k.table.register f (.function (.met f)) }) :
    Yields E (meetFunction f) k fun _ k' => P k' := by
  unfold meetFunction
  refine Yields.bind (P := fun t k' => t = k.table ∧ k' = k) ⟨rfl, rfl⟩ ?_
  rintro _ k ⟨rfl, rfl⟩
  split
  next h => exact hmet (by simpa using h)
  next h => exact hkept (by simpa using h)

/-- **What holds of an application that is built**: of an operator that is not met, and of one that was
met with any definition. -/
theorem yields_build {f : String} {canonical held : Action (List Expr)} {P : Expr → Kernel → Prop}
    (hwildcard : Expr.isWildcardName f = true → Yields E (do apply f (← canonical)) k P)
    (hmeet : Expr.isWildcardName f = false → Yields E (meetFunction f) k fun _ k' =>
      ∀ definition x, k'.table.find? f = definition → Applies f canonical held definition x →
        Yields E x k' P) :
    Yields E (build f canonical held) k P := by
  cases h : Expr.isWildcardName f with
  | true =>
      rw [build_of_isWildcardName h]
      exact hwildcard h
  | false =>
      rw [build_eq h]
      refine (hmeet h).bind fun _ k' hx => ?_
      exact Yields.bind (P := fun t k₁ => t = k'.table ∧ k₁ = k') ⟨rfl, rfl⟩ fun _ _ ht => by
        obtain ⟨rfl, rfl⟩ := ht
        exact hx _ _ rfl (applies f canonical held _)

/-- An operator that has a definition is applied as that says. -/
theorem yields_build_of_contains {f : String} {canonical held : Action (List Expr)}
    {P : Expr → Kernel → Prop} (hwildcard : Expr.isWildcardName f = false)
    (hf : k.table.contains f = true)
    (h : Yields E (applyMet f canonical held (k.table.find? f)) k P) :
    Yields E (build f canonical held) k P := by
  rw [build_eq hwildcard]
  refine (yields_meetFunction (P := fun k' => k' = k) (fun _ => rfl) fun h => ?_).bind ?_
  · rw [hf] at h
    cases h
  · rintro _ k rfl
    exact Yields.bind (P := fun t k₁ => t = k.table ∧ k₁ = k) ⟨rfl, rfl⟩ fun _ _ ht => by
      obtain ⟨rfl, rfl⟩ := ht
      exact h

end Yields

/-! ## Coefficients -/

/-- How a product of one term is split into its coefficient and what it multiplies. -/
inductive Splits : Expr → Action (Number × Option Expr) → Prop
  | number (v : Number) : Splits (.number v) (pure (v, none))
  | negation (m : Expr) (rest : List Expr) (d : Option Nat) (c : Bool) :
      Splits (.application "Negate" (m :: rest) d c) (pure (.negativeOne, some m))
  | multiple (v : Number) (m : Expr) (d : Option Nat) (c : Bool) :
      Splits (.application "Multiply" [.number v, m] d c) (pure (v, some m))
  | product (v : Number) (rest : List Expr) (d : Option Nat) (c : Bool) (h : rest.length ≠ 1) :
      Splits (.application "Multiply" (.number v :: rest) d c)
        (do return (v, some (← apply "Multiply" rest)))
  | empty {f : String} (d : Option Nat) (c : Bool) (h : f = "Negate" ∨ f = "Multiply") :
      Splits (.application f [] d c) (throw .missingOperand)
  | whole (e : Expr) (hnumber : e.isNumber = false) (hnegation : e.isApplicationOf "Negate" = false)
      (hfactor : e.isApplicationOf "Multiply" = true →
        ∃ x rest, e.operands = x :: rest ∧ x.isNumber = false) :
      Splits e (pure (.one, some e))

/-- **Splitting a term** splits the product of it alone. -/
theorem exists_splits (term : Expr) : ∃ split : Expr → Action (Number × Option Expr),
    splitCoefficient term = mul [term] >>= split ∧ ∀ r, Splits r (split r) := by
  refine ⟨_, rfl, fun r => ?_⟩
  cases r with
  | number v => exact .number v
  | symbol n d c => exact .whole _ rfl rfl fun h => by cases h
  | error code details operand => exact .whole _ rfl rfl fun h => by cases h
  | application f ops d c =>
      simp only
      split
      next hf =>
        obtain rfl : f = "Negate" := by simpa using hf
        cases ops with
        | nil => exact .empty d c (.inl rfl)
        | cons m rest => exact .negation m rest d c
      next hf =>
        have hnegation : (Expr.application f ops d c).isApplicationOf "Negate" = false := by
          simpa [Expr.isApplicationOf] using hf
        split
        next hf =>
          obtain rfl : f = "Multiply" := by simpa using hf
          rcases ops with _ | ⟨x, rest⟩
          · exact .empty d c (.inr rfl)
          · cases x with
            | number v =>
                rcases rest with _ | ⟨m, _ | ⟨m', rest⟩⟩
                · exact .product v [] d c (by simp)
                · exact .multiple v m d c
                · exact .product v (m :: m' :: rest) d c (by simp)
            | _ => exact .whole _ rfl rfl fun _ => ⟨_, _, rfl, rfl⟩
        next hf =>
          refine .whole _ rfl hnegation fun h => absurd h ?_
          simpa [Expr.isApplicationOf] using hf

/-! ## Quotients -/

/-- How two expressions are divided, where `next` divides what is left of a nested quotient. -/
inductive Divides : Expr → Expr → ((Expr → Expr → Action Expr) → Action Expr) → Prop
  | invalid {a b : Expr} (h : (a.isValid && b.isValid) = false) :
      Divides a b fun _ => apply "Divide" [a, b]
  | numbers (x y : Number) :
      Divides (.number x) (.number y) fun _ => do makeNumber (← number (x.div y))
  | byOne (a : Expr) {y : Number} (h : y.isOne = true) : Divides a (.number y) fun _ => pure a
  | byNumber (a : Expr) (y : Number) :
      Divides a (.number y) fun _ => do mul [a, ← makeNumber (← number y.inv)]
  | ofZero {x : Number} (b : Expr) (h : x.isZero = true) : Divides (.number x) b fun _ => zero
  | same {a b : Expr} (h : a.same b = true) : Divides a b fun _ => one
  | ofQuotient (n d : Expr) (rest : List Expr) (i : Option Nat) (c : Bool) (b : Expr) :
      Divides (.application "Divide" (n :: d :: rest) i c) b fun next => do next n (← mul [d, b])
  | byQuotient (a n d : Expr) (rest : List Expr) (i : Option Nat) (c : Bool) :
      Divides a (.application "Divide" (n :: d :: rest) i c) fun next => do next (← mul [a, d]) n
  | lacking {a b : Expr} (h : (a.lacksOperand || b.lacksOperand) = true) :
      Divides a b fun _ => throw .missingOperand
  | plain (a b : Expr) : Divides a b fun _ => apply "Divide" [a, b]

theorem quotientParts_cases {e : Expr} (he : e.isApplicationOf "Divide" = true) :
    (∃ n d rest i c, e = .application "Divide" (n :: d :: rest) i c ∧
        quotientParts e = pure (n, d)) ∨
      e.lacksOperand = true ∧ quotientParts e = throw .missingOperand := by
  cases e with
  | application f ops i c =>
      obtain rfl : f = "Divide" := by simpa [Expr.isApplicationOf] using he
      rcases ops with _ | ⟨n, _ | ⟨d, rest⟩⟩
      · exact .inr ⟨rfl, rfl⟩
      · exact .inr ⟨rfl, rfl⟩
      · exact .inl ⟨n, d, rest, i, c, rfl, rfl⟩
  | _ => cases he

/-- What is left of a division by an expression that is no number. -/
theorem divWithin_eq {a b : Expr} (fuel : Nat) (hv : (a.isValid && b.isValid) = true)
    (hb : b.isNumber = false) :
    divWithin (fuel + 1) a b = (do
      if a.literal?.any (·.isZero) then zero
      else if a.same b then one
      else if a.isApplicationOf "Divide" then
        let (n, d) ← quotientParts a
        divWithin fuel n (← mul [d, b])
      else if b.isApplicationOf "Divide" then
        let (n, d) ← quotientParts b
        divWithin fuel (← mul [a, d]) n
      else apply "Divide" [a, b]) := by
  conv_lhs => unfold divWithin
  rw [if_neg (by simp [hv])]
  cases b with
  | number v => cases hb
  | _ => cases a <;> dsimp only

/-- **Dividing is one of these steps**, with less fuel for the quotients that are left. -/
theorem exists_divides (a b : Expr) : ∃ step : (Expr → Expr → Action Expr) → Action Expr,
    (∀ fuel, divWithin (fuel + 1) a b = step (divWithin fuel)) ∧ Divides a b step := by
  cases hv : a.isValid && b.isValid with
  | false =>
      refine ⟨_, fun fuel => ?_, .invalid hv⟩
      unfold divWithin
      rw [hv, Bool.not_false, if_pos rfl]
  | true =>
      cases hb : b.isNumber with
      | true =>
          obtain ⟨y, rfl⟩ := Expr.eq_number_of_isNumber hb
          cases ha : a.isNumber with
          | true =>
              obtain ⟨x, rfl⟩ := Expr.eq_number_of_isNumber ha
              exact ⟨_, fun _ => rfl, .numbers x y⟩
          | false =>
              have hstep : ∀ fuel, divWithin (fuel + 1) a (.number y) = (do
                  if y.isOne then return a else mul [a, ← makeNumber (← number y.inv)]) := by
                intro fuel
                unfold divWithin
                rw [hv, Bool.not_true, if_neg Bool.false_ne_true]
                cases a with
                | number v => cases ha
                | _ => rfl
              cases hy : y.isOne with
              | true => exact ⟨_, fun fuel => by rw [hstep, hy, if_pos rfl], .byOne a hy⟩
              | false =>
                  exact ⟨_, fun fuel => by rw [hstep, hy, if_neg Bool.false_ne_true], .byNumber a y⟩
      | false =>
          by_cases h0 : a.literal?.any (·.isZero) = true
          · obtain ⟨x, rfl, -⟩ := Expr.eq_number_of_literal h0
            exact ⟨_, fun fuel => by rw [divWithin_eq fuel hv hb, if_pos h0], .ofZero b h0⟩
          by_cases hsame : a.same b = true
          · refine ⟨_, fun fuel => ?_, .same hsame⟩
            rw [divWithin_eq fuel hv hb, if_neg h0, if_pos hsame]
          by_cases hqa : a.isApplicationOf "Divide" = true
          · obtain ⟨n, d, rest, i, c, rfl, hparts⟩ | ⟨hlacks, hparts⟩ := quotientParts_cases hqa
            · refine ⟨_, fun fuel => ?_, .ofQuotient n d rest i c b⟩
              rw [divWithin_eq fuel hv hb, if_neg h0, if_neg hsame, if_pos hqa, hparts, pure_bind]
            · refine ⟨_, fun fuel => ?_, .lacking (by rw [hlacks, Bool.true_or])⟩
              rw [divWithin_eq fuel hv hb, if_neg h0, if_neg hsame, if_pos hqa, hparts]
              rfl
          by_cases hqb : b.isApplicationOf "Divide" = true
          · obtain ⟨n, d, rest, i, c, rfl, hparts⟩ | ⟨hlacks, hparts⟩ := quotientParts_cases hqb
            · refine ⟨_, fun fuel => ?_, .byQuotient a n d rest i c⟩
              rw [divWithin_eq fuel hv hb, if_neg h0, if_neg hsame, if_neg hqa, if_pos hqb, hparts,
                pure_bind]
            · refine ⟨_, fun fuel => ?_, .lacking (by rw [hlacks, Bool.or_true])⟩
              rw [divWithin_eq fuel hv hb, if_neg h0, if_neg hsame, if_neg hqa, if_pos hqb, hparts]
              rfl
          refine ⟨_, fun fuel => ?_, .plain a b⟩
          rw [divWithin_eq fuel hv hb, if_neg h0, if_neg hsame, if_neg hqa, if_neg hqb]

/-! ## Powers -/

/-- How an expression is raised to a power. -/
inductive Raises : Expr → Expr → Action Expr → Prop
  | invalid {b e : Expr} (h : (b.isValid && e.isValid) = false) : Raises b e (apply "Power" [b, e])
  | byZero (b : Expr) {w : Number} (h : w.isZero = true) : Raises b (.number w) one
  | byOne (b : Expr) {w : Number} (h : w.isOne = true) : Raises b (.number w) (pure b)
  | ofOne {v : Number} (e : Expr) (h : v.isOne = true) : Raises (.number v) e one
  | numbers (v w : Number) : Raises (.number v) (.number w) (do
      match ← number (exactPower? (← getPrecision) v w) with
      | some x => makeNumber x
      | none => apply "Power" [.number v, .number w])
  | ofPower (b : Expr) (x : Number) (rest : List Expr) (i : Option Nat) (c : Bool) {w : Number}
      {n : Int} (h : w.integer? = some n) :
      Raises (.application "Power" (b :: .number x :: rest) i c) (.number w)
        (do pow b (← makeNumber (← number (x.mul (.ofInt n)))))
  | ofNegation (b : Expr) (rest : List Expr) (i : Option Nat) (c : Bool) {w : Number} {n : Int}
      (h : w.integer? = some n) :
      Raises (.application "Negate" (b :: rest) i c) (.number w) (do
        let r ← pow b (.number w)
        if n % 2 = 0 then return r else neg r)
  | ofProduct (ops : List Expr) (i : Option Nat) (c : Bool) {w : Number} {n : Int}
      (h : w.integer? = some n) :
      Raises (.application "Multiply" ops i c) (.number w) (do mul (← powAll ops (.number w)))
  | ofQuotient (a b : Expr) (rest : List Expr) (i : Option Nat) (c : Bool) {w : Number} {n : Int}
      (h : w.integer? = some n) :
      Raises (.application "Divide" (a :: b :: rest) i c) (.number w) (do
        let x ← pow a (.number w)
        let y ← pow b (.number w)
        div x y)
  | lacking {b : Expr} (e : Expr) (h : b.lacksOperand = true) : Raises b e (throw .missingOperand)
  | plain {b e : Expr} (h : b.operator = "Multiply" → e.literal?.bind Number.integer? = none) :
      Raises b e (apply "Power" [b, e])

/-- **Raising to a power is one of these steps.** -/
theorem raises (b e : Expr) : Raises b e (pow b e) := by
  unfold pow
  cases hv : b.isValid && e.isValid with
  | false =>
      rw [Bool.not_false, if_pos rfl]
      exact .invalid hv
  | true =>
      rw [Bool.not_true, if_neg Bool.false_ne_true]
      split
      next h0 =>
        obtain ⟨w, rfl, hw⟩ := Expr.eq_number_of_literal h0
        exact .byZero b hw
      next =>
        split
        next h1 =>
          obtain ⟨w, rfl, hw⟩ := Expr.eq_number_of_literal h1
          exact .byOne b hw
        next =>
          cases b with
          | number v =>
              simp only
              split
              next hone => exact .ofOne e hone
              next =>
                cases e with
                | number w => exact .numbers v w
                | _ => exact .plain fun h => absurd h (by simp [Expr.operator])
          | symbol n d c => exact .plain fun h => absurd h (by simp [Expr.operator])
          | error code details operand => exact .plain fun h => absurd h (by simp [Expr.operator])
          | application f ops i c =>
              simp only
              split
              next hnone => exact .plain fun _ => hnone
              next n hn =>
                obtain ⟨w, rfl, hn⟩ := Expr.eq_number_of_integer? hn
                split
                next hf =>
                  obtain rfl : f = "Power" := by simpa using hf
                  rcases ops with _ | ⟨b, _ | ⟨x, rest⟩⟩
                  · exact .lacking _ rfl
                  · exact .lacking _ rfl
                  · cases x with
                    | number x => exact .ofPower b x rest i c hn
                    | _ => exact .plain fun h => absurd h (by simp [Expr.operator])
                next =>
                  split
                  next hf =>
                    obtain rfl : f = "Negate" := by simpa using hf
                    rcases ops with _ | ⟨b, rest⟩
                    · exact .lacking _ rfl
                    · exact .ofNegation b rest i c hn
                  next =>
                    split
                    next hf =>
                      obtain rfl : f = "Multiply" := by simpa using hf
                      exact .ofProduct ops i c hn
                    next hf =>
                      have hproduct : f = "Multiply" →
                          (Expr.number w).literal?.bind Number.integer? = none := fun h =>
                        absurd h (by simpa using hf)
                      split
                      next hf =>
                        obtain rfl : f = "Divide" := by simpa using hf
                        rcases ops with _ | ⟨a, _ | ⟨b, rest⟩⟩
                        · exact .lacking _ rfl
                        · exact .lacking _ rfl
                        · exact .ofQuotient a b rest i c hn
                      next => exact .plain hproduct

/-! ## Inverses -/

/-- How an expression is inverted. -/
inductive Inverts : Expr → Action Expr → Prop
  | number (v : Number) : Inverts (.number v) (do makeNumber (← number v.inv))
  | quotient (n d : Expr) (rest : List Expr) (i : Option Nat) (c : Bool) :
      Inverts (.application "Divide" (n :: d :: rest) i c) (div d n)
  | power (b : Expr) (v : Number) (rest : List Expr) (i : Option Nat) (c : Bool) :
      Inverts (.application "Power" (b :: .number v :: rest) i c)
        (do pow b (← makeNumber (← number v.neg)))
  | lacking {e : Expr} (h : e.lacksOperand = true) : Inverts e (throw .missingOperand)
  | plain (e : Expr) : Inverts e (do div (← one) e)

/-- **Inverting is one of these steps.** -/
theorem inverts (e : Expr) : Inverts e (inv e) := by
  unfold inv
  cases e with
  | number v => exact .number v
  | symbol n d c => exact .plain _
  | error code details operand => exact .plain _
  | application f ops i c =>
      simp only
      split
      next hf =>
        obtain ⟨n, d, rest, j, c', heq, hparts⟩ | ⟨hlacks, hparts⟩ := quotientParts_cases hf
        · rw [hparts, heq]
          exact .quotient n d rest j c'
        · rw [hparts]
          exact .lacking hlacks
      next =>
        split
        next hf =>
          obtain rfl : f = "Power" := by simpa [Expr.isApplicationOf] using hf
          rcases ops with _ | ⟨b, _ | ⟨x, rest⟩⟩
          · exact .lacking rfl
          · exact .lacking rfl
          · cases x with
            | number v => exact .power b v rest i c
            | _ => exact .plain _
        next => exact .plain _

/-! ## Distribution -/

/-- How two factors are distributed. -/
inductive Distributes : Expr → Expr → Action Expr → Prop
  | negations (a : Expr) (ops : List Expr) (d : Option Nat) (c : Bool) (b : Expr) (ops' : List Expr)
      (d' : Option Nat) (c' : Bool) :
      Distributes (.application "Negate" (a :: ops) d c) (.application "Negate" (b :: ops') d' c')
        (distribute2 a b)
  | ofNegation (a : Expr) (rest : List Expr) (d : Option Nat) (c : Bool) (rhs : Expr) :
      Distributes (.application "Negate" (a :: rest) d c) rhs (do negOf (← distribute2 a rhs))
  | byNegation (lhs b : Expr) (rest : List Expr) (d : Option Nat) (c : Bool) :
      Distributes lhs (.application "Negate" (b :: rest) d c) (do negOf (← distribute2 lhs b))
  | quotients (a v : Expr) (ops : List Expr) (d : Option Nat) (c : Bool) (b w : Expr)
      (ops' : List Expr) (d' : Option Nat) (c' : Bool) :
      Distributes (.application "Divide" (a :: v :: ops) d c)
        (.application "Divide" (b :: w :: ops') d' c') (do
          let denominator ← mulOf [v, w]
          divOf (← distribute2 a b) denominator)
  | ofQuotient (a : Expr) (rest : List Expr) (d : Option Nat) (c : Bool) (rhs : Expr) :
      Distributes (.application "Divide" (a :: rest) d c) rhs
        (do divOf (← distribute2 a rhs) (← givenOperand rest.head?))
  | byQuotient (lhs b : Expr) (rest : List Expr) (d : Option Nat) (c : Bool) :
      Distributes lhs (.application "Divide" (b :: rest) d c)
        (do divOf (← distribute2 lhs b) (← givenOperand rest.head?))
  | ofSum (ops : List Expr) (d : Option Nat) (c : Bool) (rhs : Expr) :
      Distributes (.application "Add" ops d c) rhs (do addOf (← distributeLeft ops rhs))
  | bySum (lhs : Expr) (ops : List Expr) (d : Option Nat) (c : Bool) :
      Distributes lhs (.application "Add" ops d c) (do addOf (← distributeRight lhs ops))
  | lacking {lhs rhs : Expr} {f : Fault} (h : (lhs.lacksOperand || rhs.lacksOperand) = true)
      (hf : f ≠ .unbounded) : Distributes lhs rhs (throw f)
  | plain (lhs rhs : Expr) : Distributes lhs rhs (mulOf [lhs, rhs])

/-- **Distributing two factors is one of these steps.** -/
theorem distributes (lhs rhs : Expr) : Distributes lhs rhs (distribute2 lhs rhs) := by
  unfold distribute2
  split
  next ops d c ops' d' c' =>
    rcases ops with _ | ⟨a, ops⟩
    · exact .lacking rfl (by simp)
    rcases ops' with _ | ⟨b, ops'⟩
    · exact .lacking (Bool.or_true _) (by simp)
    exact .negations a ops d c b ops' d' c'
  next ops d c _ =>
    rcases ops with _ | ⟨a, rest⟩
    · exact .lacking rfl (by simp)
    exact .ofNegation a rest d c _
  next ops d c _ =>
    rcases ops with _ | ⟨b, rest⟩
    · exact .lacking (Bool.or_true _) (by simp)
    exact .byNegation _ b rest d c
  next ops d c ops' d' c' =>
    rcases ops with _ | ⟨a, _ | ⟨v, ops⟩⟩
    · exact .lacking rfl (by simp)
    · exact .lacking rfl (by simp)
    rcases ops' with _ | ⟨b, _ | ⟨w, ops'⟩⟩
    · exact .lacking (Bool.or_true _) (by simp)
    · exact .lacking (Bool.or_true _) (by simp)
    exact .quotients a v ops d c b w ops' d' c'
  next ops d c _ _ =>
    rcases ops with _ | ⟨a, rest⟩
    · exact .lacking rfl (by simp)
    exact .ofQuotient a rest d c _
  next ops d c _ _ =>
    rcases ops with _ | ⟨b, rest⟩
    · exact .lacking (Bool.or_true _) (by simp)
    exact .byQuotient _ b rest d c
  next ops d c _ _ => exact .ofSum ops d c _
  next ops d c _ _ _ => exact .bySum _ ops d c
  next => exact .plain lhs rhs

/-! ## Powers of sums -/

/-- How a power of an expression is expanded, where the exponent is at least two. -/
inductive ExpandsPower (n : Nat) : Expr → Action (Option Expr) → Prop
  | negation (a : Expr) (rest : List Expr) (d : Option Nat) (c : Bool) :
      ExpandsPower n (.application "Negate" (a :: rest) d c) (do
        match ← expandHighPower n a with
        | none => return none
        | some r => if n % 2 = 0 then return some r else return some (← negOf r))
  | sum (ops : List Expr) (d : Option Nat) (c : Bool) (h : ops ≠ []) :
      ExpandsPower n (.application "Add" ops d c) (do
        return some (← addOf (← multinomialTerms ops (compositions ops.length n) .initial)))
  | emptySum (d : Option Nat) (c : Bool) :
      ExpandsPower n (.application "Add" [] d c) (throw .unbounded)
  | lacking {e : Expr} (h : e.lacksOperand = true) : ExpandsPower n e (throw .missingOperand)
  | other {e : Expr} (hnegation : e.isApplicationOf "Negate" = false)
      (hsum : e.isApplicationOf "Add" = false) : ExpandsPower n e (pure none)

/-- **Expanding a power is one of these steps.** -/
theorem expandsPower (n : Nat) (e : Expr) : ExpandsPower n e (expandHighPower n e) := by
  unfold expandHighPower
  cases e with
  | application f ops d c =>
      simp only
      split
      next hf =>
        obtain rfl : f = "Negate" := by simpa using hf
        cases ops with
        | nil => exact .lacking rfl
        | cons a rest => exact .negation a rest d c
      next hnegation =>
        split
        next hf =>
          obtain rfl : f = "Add" := by simpa using hf
          cases ops with
          | nil => exact .emptySum d c
          | cons a rest => exact .sum (a :: rest) d c (by simp)
        next hsum =>
          exact .other (Bool.not_eq_true _ ▸ hnegation) (Bool.not_eq_true _ ▸ hsum)
  | _ => exact .other rfl rfl

/-! ## Expansion -/

/-- How an expression is expanded. -/
inductive Expands : Expr → Action (Option Expr) → Prop
  | number (v : Number) : Expands (.number v) (pure none)
  | symbol (name : String) (d : Option Nat) (c : Bool) : Expands (.symbol name d c) (pure none)
  | error (code : String) (details : List String) (operand : Option Expr) :
      Expands (.error code details operand) (pure none)
  | relation {f : String} (ops : List Expr) (d : Option Nat) (c : Bool)
      (h : (Relation.ofOperator? f).isSome = true) :
      Expands (.application f ops d c) (do return some (← apply f (← expandEach ops)))
  | quotient (a : Expr) (rest : List Expr) (d : Option Nat) (c : Bool) :
      Expands (.application "Divide" (a :: rest) d c) (do
        match ← expand? a with
        | none => return none
        | some n => return some (← splitQuotient n rest.head?))
  | product (ops : List Expr) (d : Option Nat) (c : Bool) :
      Expands (.application "Multiply" ops d c) (do return some (← distributeProduct ops))
  | sum (ops : List Expr) (d : Option Nat) (c : Bool) :
      Expands (.application "Add" ops d c) (do return some (← addOf (← expandEach ops)))
  | negation (a : Expr) (rest : List Expr) (d : Option Nat) (c : Bool) :
      Expands (.application "Negate" (a :: rest) d c) (do
        match ← expand? a with
        | none => return none
        | some e => return some (← negOf e))
  | power (base exponent : Expr) (rest : List Expr) (d : Option Nat) (c : Bool) {n : Int}
      (h : asInteger? exponent = some n) :
      Expands (.application "Power" (base :: exponent :: rest) d c)
        (expandPowerWith (expand? base) base n)
  | brokenPower (base exponent : Expr) (rest : List Expr) (d : Option Nat) (c : Bool)
      (h : asInteger? exponent = none) :
      Expands (.application "Power" (base :: exponent :: rest) d c) (pure none)
  | empty {f : String} (d : Option Nat) (c : Bool) (h : f = "Divide" ∨ f = "Negate") :
      Expands (.application f [] d c) (pure none)
  | lacking {e : Expr} (h : e.lacksOperand = true) : Expands e (throw .missingOperand)
  | other {f : String} (ops : List Expr) (d : Option Nat) (c : Bool)
      (hrelation : Relation.ofOperator? f = none)
      (h : f ∉ ["Divide", "Multiply", "Add", "Negate", "Power"]) :
      Expands (.application f ops d c) (pure none)

/-- **Expanding is one of these steps.** -/
theorem expands (e : Expr) : Expands e (expand? e) := by
  unfold expand?
  cases e with
  | number v => exact .number v
  | symbol name d c => exact .symbol name d c
  | error code details operand => exact .error code details operand
  | application f ops d c =>
      simp only
      split
      next hrelation => exact .relation ops d c hrelation
      next hrelation =>
        split
        next hf =>
          obtain rfl : f = "Divide" := by simpa using hf
          cases ops with
          | nil => exact .empty d c (.inl rfl)
          | cons a rest => exact .quotient a rest d c
        next hdivide =>
          split
          next hf =>
            obtain rfl : f = "Multiply" := by simpa using hf
            exact .product ops d c
          next hmultiply =>
            split
            next hf =>
              obtain rfl : f = "Add" := by simpa using hf
              exact .sum ops d c
            next hadd =>
              split
              next hf =>
                obtain rfl : f = "Negate" := by simpa using hf
                cases ops with
                | nil => exact .empty d c (.inr rfl)
                | cons a rest => exact .negation a rest d c
              next hnegate =>
                split
                next hf =>
                  obtain rfl : f = "Power" := by simpa using hf
                  rcases ops with _ | ⟨base, _ | ⟨exponent, rest⟩⟩
                  · exact .lacking rfl
                  · exact .lacking rfl
                  · cases hn : asInteger? exponent with
                    | none =>
                        simp only [hn]
                        exact .brokenPower base exponent rest d c hn
                    | some n =>
                        simp only [hn]
                        exact .power base exponent rest d c hn
                next hpower =>
                  exact .other ops d c (by simpa using hrelation) (by simp_all)

/-! ## Distribution of operands -/

/-- How the operands of an operator are distributed. -/
inductive DistributesOperands : String → List Expr → Action (Option Expr) → Prop
  | emptyProduct : DistributesOperands "Multiply" [] (throw .unbounded)
  | product (a : Expr) (rest : List Expr) :
      DistributesOperands "Multiply" (a :: rest) (do return some (← distributeProduct (a :: rest)))
  | negation (a : Expr) (rest : List Expr) : DistributesOperands "Negate" (a :: rest)
      (do return some (← distributeProduct [← negativeOne, a]))
  | quotient (a : Expr) (rest : List Expr) : DistributesOperands "Divide" (a :: rest) (do
      match ← distributeNumerator? a with
      | none => return none
      | some r =>
          match rest with
          | [] => throw .operandIndex
          | d :: _ => return some (← divOf r d))
  | power (base exponent : Expr) (rest : List Expr) {n : Int} (h : asInteger? exponent = some n) :
      DistributesOperands "Power" (base :: exponent :: rest) (expandPower? base n)
  | brokenPower (base exponent : Expr) (rest : List Expr) (h : asInteger? exponent = none) :
      DistributesOperands "Power" (base :: exponent :: rest) (pure none)
  | lacking {f : String} {ops : List Expr}
      (h : (Expr.application f ops none true).lacksOperand = true) :
      DistributesOperands f ops (throw .operandIndex)
  | other {f : String} (ops : List Expr) (h : f ∉ ["Multiply", "Negate", "Divide", "Power"]) :
      DistributesOperands f ops (pure none)

/-- **Distributing operands is one of these steps.** -/
theorem distributesOperands (f : String) (ops : List Expr) :
    DistributesOperands f ops (distribute? f ops) := by
  cases ops with
  | nil =>
      unfold distribute?
      split
      next hf =>
        obtain rfl : f = "Multiply" := by simpa using hf
        exact .emptyProduct
      next hmultiply =>
        split
        next hf =>
          refine .lacking ?_
          simp only [Bool.or_eq_true, beq_iff_eq] at hf
          obtain (rfl | rfl) | rfl := hf <;> rfl
        next hf => exact .other [] (by simp_all)
  | cons a rest =>
      unfold distribute?
      split
      next hf =>
        obtain rfl : f = "Power" := by simpa using hf
        cases rest with
        | nil => exact .lacking rfl
        | cons exponent rest =>
            cases hn : asInteger? exponent with
            | none =>
                simp only [hn]
                exact .brokenPower a exponent rest hn
            | some n =>
                simp only [hn]
                exact .power a exponent rest hn
      next hpower =>
        split
        next hf =>
          obtain rfl : f = "Negate" := by simpa using hf
          exact .negation a rest
        next hnegate =>
          split
          next hf =>
            obtain rfl : f = "Divide" := by simpa using hf
            exact .quotient a rest
          next hdivide =>
            split
            next hf =>
              obtain rfl : f = "Multiply" := by simpa using hf
              exact .product a rest
            next hmultiply => exact .other (a :: rest) (by simp_all)

end Kernel

end SymbolicAlgebra
