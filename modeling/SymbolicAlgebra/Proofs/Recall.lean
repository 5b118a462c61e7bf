import SymbolicAlgebra.Proofs.Lasting

/-!
# Proofs/Recall — a value that was computed once is found again

Computing values meets names, narrows types, fills the pool and caches the values of symbols.  None
of that changes what a value depends on: `Later k k'` says that the kernel `k'` agrees with `k` on
it.  Building expressions and computing values lead to later kernels only (`stable_later`,
`maintains_constantWithin_later`).

Computing a real value again, in any later kernel, gives the same value and leaves the kernel as it
is (`recalls_realValue`): each symbol that took part has its value cached by then.
-/

namespace SymbolicAlgebra

/-! ## What a value depends on -/

/-- What evaluation reads off a registration. -/
structure Faculties where
  /-- The rule that computes the value of an application from those of its operands. -/
  rule : Option Callback
  isPure : Bool
  isConstant : Bool

/-- An absent registration counts like that of a name that was only met. -/
def facultiesOf : Option Definition → Faculties
  | some (.function d) =>
      ⟨if d.isLazy.truthy then none else d.evaluate, d.isPure.truthy, false⟩
  | some (.symbol d) => ⟨none, true, d.constant.truthy⟩
  | none => ⟨none, true, false⟩

theorem facultiesOf_met {name : String} {d : Definition} (h : Definition.IsMet name d) :
    facultiesOf (some d) = facultiesOf none := by
  cases h <;> rfl

theorem facultiesOf_narrow (d : Definition) (type : TypeName) :
    facultiesOf (some (d.narrow type)) = facultiesOf (some d) := by
  cases d <;> rfl

namespace DefinitionTable

variable {t : DefinitionTable}

/-- The value field of a name. -/
def valueOf (t : DefinitionTable) (name : String) : Datum :=
  match t.symbol? name with
  | some d => d.value
  | none => .raw .null

/-- The value field of a registration. -/
def valueIn : Option Definition → Datum
  | some (.symbol d) => d.value
  | _ => .raw .null

theorem valueIn_met {name : String} {d : Definition} (h : Definition.IsMet name d) :
    valueIn (some d) = valueIn none := by
  cases h <;> rfl

theorem valueIn_narrow (d : Definition) (type : TypeName) :
    valueIn (some (d.narrow type)) = valueIn (some d) := by
  cases d <;> rfl

theorem valueOf_eq (t : DefinitionTable) (name : String) : t.valueOf name = valueIn (t.find? name) := by
  rw [valueOf, symbol?]
  cases t.find? name with
  | none => rfl
  | some d => cases d <;> rfl

end DefinitionTable

namespace Kernel

open DefinitionTable

/-- A kernel in which every value is what it was before, and every value computed before is still
known. -/
structure Later (k k' : Kernel) : Prop where
  precision : k'.settings.precision = k.settings.precision
  faculties : ∀ i, facultiesOf (k'.table.get? i) = facultiesOf (k.table.get? i)
  value : ∀ n, k'.table.valueOf n = k.table.valueOf n
  known : ∀ n v, k.constants.lookup n = some v → k'.constants.lookup n = some v
  /-- Only names with a value have one computed. -/
  unknown : ∀ n, (k.table.valueOf n).isNull = true →
    k.constants.lookup n = none → k'.constants.lookup n = none

namespace Later

theorem refl (k : Kernel) : Later k k :=
  ⟨rfl, fun _ => rfl, fun _ => rfl, fun _ _ h => h, fun _ _ h => h⟩

theorem trans {k₁ k₂ k₃ : Kernel} (h : Later k₁ k₂) (h' : Later k₂ k₃) : Later k₁ k₃ where
  precision := h'.precision.trans h.precision
  faculties i := (h'.faculties i).trans (h.faculties i)
  value n := (h'.value n).trans (h.value n)
  known n v hv := h'.known n v (h.known n v hv)
  unknown n hn hv := h'.unknown n (by rw [h.value, hn]) (h.unknown n hn hv)

/-- A kernel with another table of the same values, and the same settings and constants. -/
theorem of_table {k k' : Kernel} (hs : k'.settings = k.settings) (hc : k'.constants = k.constants)
    (hf : ∀ i, facultiesOf (k'.table.get? i) = facultiesOf (k.table.get? i))
    (hv : ∀ n, k'.table.valueOf n = k.table.valueOf n) : Later k k' where
  precision := by rw [hs]
  faculties := hf
  value := hv
  known n v h := by rw [hc, h]
  unknown n _ h := by rw [hc, h]

/-- The value of a name with one is computed and kept. -/
theorem cache {k k' : Kernel} {name : String} (v : Option Number) (h : Later k k')
    (hnew : k.constants.lookup name = none) (hvalue : (k.table.valueOf name).isNull = false) :
    Later k { k' with constants := (name, v) :: k'.constants } where
  precision := h.precision
  faculties := h.faculties
  value := h.value
  known n w hw := by
    have hne : (n == name) = false := by
      rw [beq_eq_false_iff_ne]
      rintro rfl
      rw [hnew] at hw
      cases hw
    rw [List.lookup_cons, hne]
    exact h.known n w hw
  unknown n hn hw := by
    have hne : (n == name) = false := by
      rw [beq_eq_false_iff_ne]
      rintro rfl
      rw [hn] at hvalue
      cases hvalue
    rw [List.lookup_cons, hne]
    exact h.unknown n hn hw

/-- A registration is narrowed: nothing that evaluation reads changes. -/
theorem narrow {k : Kernel} {i : Nat} {d : Definition} (hd : k.table.get? i = some d)
    (type : TypeName) : Later k { k with table := k.table.modify i fun _ => d.narrow type } := by
  refine of_table rfl rfl (read_get?_narrow hd (facultiesOf_narrow d type)) fun n => ?_
  rw [valueOf_eq, valueOf_eq]
  exact read_find?_narrow hd (valueIn_narrow d type) n

/-- A name is met. -/
theorem register {k : Kernel} {name : String} {d : Definition} (h : k.table.contains name = false)
    (hd : Definition.IsMet name d) : Later k { k with table := k.table.register name d } := by
  refine of_table rfl rfl (read_get?_register (facultiesOf_met hd) name) fun n => ?_
  rw [valueOf_eq, valueOf_eq]
  exact read_find?_register h (valueIn_met hd) n

end Later

/-- **Building leads to later kernels.** -/
theorem stable_later (k : Kernel) : Stable (Later k) where
  noted _ h := h.trans (.of_table rfl rfl (fun _ => rfl) fun _ => rfl)
  pooled _ h := h.trans (.of_table rfl rfl (fun _ => rfl) fun _ => rfl)
  narrowed h hd _ := h.trans (.narrow hd _)
  met h hname hd := h.trans (.register hname hd)

/-! ## Values are found again -/

/-- Whatever the action gives, it gives again in every later kernel, which it leaves as it is. -/
def Recalls {α : Type} (x : Action α) : Prop :=
  ∀ k, Yields Anyhow x k fun a k' =>
    Later k k' ∧ ∀ k'', Later k' k'' → x.run.run k'' = (.ok a, k'')

namespace Recalls

variable {α β : Type} {x : Action α} {f : α → Action β}

theorem pure (a : α) : Recalls (Pure.pure a : Action α) := fun k => ⟨.refl k, fun _ _ => rfl⟩

theorem throw (e : Fault) : Recalls (MonadExcept.throw e : Action α) := fun _ => trivial

theorem number (x : Except NumberFault α) : Recalls (Kernel.number x) := fun k =>
  yields_number (fun _ _ => trivial) fun a h => ⟨.refl k, fun k' _ => by rw [h]; rfl⟩

theorem getPrecision : Recalls Kernel.getPrecision := fun k =>
  ⟨.refl k, fun k' h => by rw [← h.precision]; rfl⟩

theorem bind (hx : Recalls x) (hf : ∀ a, Recalls (f a)) : Recalls (x >>= f) := fun k => by
  refine (hx k).bind fun a k₁ ha => (hf a k₁).mono fun b k₂ hb => ⟨ha.1.trans hb.1, fun k' h => ?_⟩
  rw [run_bind, ha.2 k' (hb.1.trans h)]
  exact hb.2 k' h

theorem ite {c : Prop} [Decidable c] {x y : Action α} (hx : Recalls x) (hy : Recalls y) :
    Recalls (if c then x else y) := by
  split
  · exact hx
  · exact hy

/-- What is read off the table is the same in later kernels. -/
theorem ofTable {f : DefinitionTable → β} {g : β → Action α}
    (hf : ∀ {k k'}, Later k k' → f k'.table = f k.table) (hg : ∀ b, Recalls (g b)) :
    Recalls (getTable >>= fun t => g (f t)) := fun k => by
  refine Yields.bind (P := fun t k' => t = k.table ∧ k' = k) ⟨rfl, rfl⟩ ?_
  rintro _ k ⟨rfl, rfl⟩
  refine (hg (f k.table) k).mono fun a k₁ ha => ⟨ha.1, fun k' h => ?_⟩
  have hrun : (getTable >>= fun t => g (f t)).run.run k' = (g (f k'.table)).run.run k' := rfl
  rw [hrun, hf (ha.1.trans h), ha.2 k' h]

/-- A test on the table comes out the same in later kernels. -/
theorem ofTest {p : DefinitionTable → Bool} {x y : Action α}
    (hp : ∀ {k k'}, Later k k' → p k'.table = p k.table) (hx : Recalls x) (hy : Recalls y) :
    Recalls (getTable >>= fun t => if p t then x else y) :=
  ofTable (g := fun b => if b then x else y) hp fun _ => ite hx hy

end Recalls

/-! ### Symbols -/

/-- Whether the value of a name is settled: it is cached, or there is none to compute. -/
inductive Recorded (k : Kernel) (name : String) : Option Number → Prop
  | known {v : Option Number} (h : k.constants.lookup name = some v) : Recorded k name v
  | absent (h : k.constants.lookup name = none) (hvalue : (k.table.valueOf name).isNull = true) :
      Recorded k name none

theorem Recorded.later {k k' : Kernel} {name : String} {v : Option Number} (h : Recorded k name v)
    (hk : Later k k') : Recorded k' name v := by
  cases h with
  | known h => exact .known (hk.known name v h)
  | absent h hvalue => exact .absent (hk.unknown name hvalue h) (by rw [hk.value, hvalue])

/-- A settled value is read off. -/
theorem Recorded.run_constantWithin {k : Kernel} {name : String} {v : Option Number}
    (h : Recorded k name v) (depth : Nat) :
    (constantWithin (depth + 1) name).run.run k = (.ok v, k) := by
  have hread : Yields Never (constantWithin (depth + 1) name) k fun w k' => w = v ∧ k' = k := by
    unfold constantWithin
    refine Yields.bind (P := fun k₀ k' => k₀ = k ∧ k' = k) ⟨rfl, rfl⟩ ?_
    rintro _ k ⟨rfl, rfl⟩
    cases h with
    | known h =>
        rw [h]
        exact Yields.pure ⟨rfl, rfl⟩
    | absent h hvalue =>
        rw [h]
        refine Yields.bind (P := fun t k' => t = k.table ∧ k' = k) ⟨rfl, rfl⟩ ?_
        rintro _ k ⟨rfl, rfl⟩
        rw [valueOf] at hvalue
        cases hd : k.table.symbol? name with
        | none => exact Yields.pure ⟨rfl, rfl⟩
        | some d =>
            rw [hd] at hvalue
            simp only [hvalue, ↓reduceIte]
            exact Yields.pure ⟨rfl, rfl⟩
  obtain ⟨w, k', hr, rfl, rfl⟩ := hread.exists_run
  exact hr

/-- The value of a symbol is settled once it was asked for. -/
theorem upholds_constantWithin {depth : Nat}
    (hdepth : ∀ k₀ n, Maintains (Later k₀) (constantWithin depth n)) (name : String)
    {k₀ k : Kernel} (hk : Later k₀ k) :
    Upholds (Later k₀) (constantWithin (depth + 1) name) k fun v k' => Recorded k' name v := by
  unfold constantWithin
  refine Upholds.bind (P := fun k' k'' => k' = k ∧ k'' = k) ⟨hk, rfl, rfl⟩ ?_
  rintro _ k - ⟨rfl, rfl⟩
  split
  next v hv => exact .pure hk (.known hv)
  next hnew =>
    refine Upholds.bind (P := fun t k' => t = k.table ∧ k' = k) ⟨hk, rfl, rfl⟩ ?_
    rintro _ k - ⟨rfl, rfl⟩
    split
    next hd => exact .pure hk (.absent hnew (by rw [valueOf, hd]; rfl))
    next d hd =>
      split
      next hnull => exact .pure hk (.absent hnew (by rw [valueOf, hd, hnull]))
      next hnull =>
        -- What is cached was not known in `k`, so the kernel after it is compared with `k`.
        have hfield := maintains_fieldValue (stable_later k).box (hdepth k) d.value k (.refl k)
        refine (hfield.weaken fun _ h => hk.trans h).bind fun v k₁ _ h => ?_
        have hvalue : (k.table.valueOf name).isNull = false := by
          rw [valueOf, hd]
          simpa using hnull
        exact ⟨hk.trans (h.1.cache v hnew hvalue), .known (by simp)⟩

theorem maintains_constantWithin_later : ∀ (depth : Nat) (k₀ : Kernel) (name : String),
    Maintains (Later k₀) (constantWithin depth name)
  | 0, _, _ => .throw _
  | depth + 1, _, name => fun _ hk =>
      (upholds_constantWithin (maintains_constantWithin_later depth) name hk).forget

theorem recalls_constant (name : String) : Recalls (constant name) := by
  intro k
  have hrun : ∀ k', (constant name).run.run k' =
      (constantWithin (k'.table.size + 1) name).run.run k' := fun _ => rfl
  have h := (upholds_constantWithin (maintains_constantWithin_later k.table.size) name
    (.refl k)).yields
  unfold Yields at h ⊢
  rw [hrun]
  split at h
  next v k₁ hk₁ =>
    refine ⟨h.1, fun k₂ hk₂ => ?_⟩
    rw [hrun, (h.2.later hk₂).run_constantWithin]
  next => trivial

/-! ### Expressions -/

theorem recalls_approximateIf (numeric : Bool) (v : Option Number) :
    Recalls (approximateIf numeric v) := by
  unfold approximateIf
  split
  · refine .ite (Recalls.getPrecision.bind fun _ => ?_) (.pure _)
    exact (Recalls.number _).bind fun _ => .pure _
  · exact .pure _

theorem recalls_evaluateCall (rule : Callback) (vs : List Number) :
    Recalls (evaluateCall rule vs) := by
  unfold evaluateCall
  split
  · exact Recalls.getPrecision.bind fun _ => .number _
  · exact .throw _

theorem facultiesOf_later {k k' : Kernel} (h : Later k k') (d : Option Nat) :
    facultiesOf (d.bind k'.table.get?) = facultiesOf (d.bind k.table.get?) := by
  cases d with
  | none => rfl
  | some i => exact h.faculties i

/-- The rule that evaluates an application. -/
def ruleOf (t : DefinitionTable) (e : Expr) : Option Callback := (facultiesOf (t.definitionOf e)).rule

theorem ruleOf_later {k k' : Kernel} (h : Later k k') (e : Expr) :
    ruleOf k'.table e = ruleOf k.table e :=
  congrArg Faculties.rule (facultiesOf_later h e.definition?)

/-- The value of an application whose rule is known. -/
def evaluateBy (constant : String → Action (Option Number)) (numeric : Bool) (ops : List Expr) :
    Option Callback → Action (Option Number)
  | none => pure none
  | some rule => do
      match ← evaluateEach constant numeric ops with
      | none => return none
      | some vs => approximateIf numeric (← evaluateCall rule vs)

/-- An application is evaluated by its rule. -/
theorem evaluateWith_application (constant : String → Action (Option Number)) (numeric : Bool)
    (f : String) (ops : List Expr) (d : Option Nat) (c : Bool) :
    evaluateWith constant numeric (.application f ops d c) =
      if !Expr.allValid ops then pure none
      else getTable >>= fun t =>
        evaluateBy constant numeric ops (ruleOf t (.application f ops d c)) := by
  rw [evaluateWith]
  refine if_congr Iff.rfl rfl (bind_congr fun t => ?_)
  rw [ruleOf, DefinitionTable.functionOf]
  cases t.definitionOf (.application f ops d c) with
  | none => rfl
  | some d =>
      cases d with
      | symbol d => rfl
      | function d =>
          obtain ⟨_, _, _, _, _, _, isLazy, _, _, rule, _, _, _⟩ := d
          rw [Option.bind_some, Definition.function?, facultiesOf]
          cases rule with
          | none => cases isLazy.truthy <;> rfl
          | some rule =>
              simp only
              cases isLazy.truthy <;> rfl

mutual

theorem recalls_evaluate (numeric : Bool) : ∀ e : Expr, Recalls (evaluateWith constant numeric e)
  | .number v => by
      unfold evaluateWith
      exact recalls_approximateIf numeric _
  | .symbol n _ _ => by
      unfold evaluateWith
      exact (recalls_constant n).bind fun _ => recalls_approximateIf numeric _
  | .application f ops d c => by
      rw [evaluateWith_application]
      refine .ite (.pure _) (.ofTable (fun h => ruleOf_later h _) fun rule => ?_)
      cases rule with
      | none => exact .pure _
      | some rule =>
          refine (recalls_evaluateEach numeric ops).bind fun o => ?_
          cases o with
          | none => exact .pure _
          | some vs => exact (recalls_evaluateCall rule vs).bind fun _ => recalls_approximateIf numeric _
  | .error _ _ _ => by
      unfold evaluateWith
      exact .pure _

theorem recalls_evaluateEach (numeric : Bool) :
    ∀ es : List Expr, Recalls (evaluateEach constant numeric es)
  | [] => by
      unfold evaluateEach
      exact .pure _
  | e :: rest => by
      unfold evaluateEach
      refine (recalls_evaluate numeric e).bind fun o => ?_
      cases o with
      | none => exact .pure _
      | some v =>
          refine (recalls_evaluateEach numeric rest).bind fun o => ?_
          cases o with
          | none => exact .pure _
          | some vs => exact .pure _

end

theorem isConstant_later {k k' : Kernel} (h : Later k k') (e : Expr) :
    k'.table.isConstant e = k.table.isConstant e := by
  have hread : ∀ (t : DefinitionTable) n d c, t.isConstant (.symbol n d c) =
      (facultiesOf (d.bind t.get?)).isConstant := by
    intro t n d c
    have hdefinition : t.definitionOf (.symbol n d c) = d.bind t.get? := rfl
    unfold isConstant
    rw [hdefinition]
    cases d.bind t.get? with
    | none => rfl
    | some x => cases x <;> rfl
  cases e with
  | symbol n d c => rw [hread, hread, facultiesOf_later h]
  | _ => rfl

mutual

theorem isPure_later {k k' : Kernel} (h : Later k k') : ∀ e : Expr,
    k'.table.isPure e = k.table.isPure e
  | .number _ => rfl
  | .symbol _ _ _ => rfl
  | .error _ _ _ => rfl
  | .application f ops d c => by
      have hread : ∀ t : DefinitionTable, t.isPure (.application f ops d c) =
          ((facultiesOf (d.bind t.get?)).isPure && t.allPure ops) := by
        intro t
        rw [isPure]
        cases d.bind t.get? with
        | none => rfl
        | some x => cases x <;> rfl
      rw [hread, hread, facultiesOf_later h, allPure_later h ops]

theorem allPure_later {k k' : Kernel} (h : Later k k') : ∀ es : List Expr,
    k'.table.allPure es = k.table.allPure es
  | [] => rfl
  | e :: rest => by rw [allPure, allPure, isPure_later h e, allPure_later h rest]

end

/-- **The real value of a canonical expression is the same when it is asked for again**, and asking
again changes nothing. -/
theorem recalls_realValue {e : Expr} (he : e.isCanonical = true) : Recalls (realValue e) := by
  unfold realValue
  cases e with
  | number v => exact .pure _
  | symbol n d c =>
      refine .ofTest (fun h => isConstant_later h _) ?_ (.pure _)
      exact (recalls_constant n).bind fun _ => .pure _
  | application f ops d c =>
      rw [canonicalize_of_isCanonical he]
      refine .ofTest (fun h => isPure_later h _) ?_ (.pure _)
      rw [pure_bind]
      exact (recalls_evaluate false _).bind fun _ => .pure _
  | error _ _ _ => exact .pure _

end Kernel

end SymbolicAlgebra
