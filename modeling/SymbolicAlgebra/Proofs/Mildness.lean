import SymbolicAlgebra.Proofs.Checking
import SymbolicAlgebra.Proofs.Lasting
import SymbolicAlgebra.Proofs.Matching
import SymbolicAlgebra.Proofs.Moderation

/-!
# Proofs/Mildness — how building and rewriting moderate expressions fails

A strict kernel puts errors in the place of missing operands, so a construction from moderate numbers
fails for its input only: for a shape that is no expression, or for operands that a form of its own does not
take (`builds_box`, `builds_canonicalize`).  What it gives is moderate again, so the same holds of rewriting
with rules whose replacements are moderate, which may also go on without end (`builds_replaceAll`).

Each function has one lemma, which says that its faults are in a set `E` that has all faults of malformed
input, and that its results are moderate.
-/

namespace SymbolicAlgebra

namespace Kernel

variable {E : Fault → Prop} {k : Kernel}

/-- Whether operands are checked. -/
abbrev IsStrict (k : Kernel) : Prop := k.settings.strict = true

/-- **Nothing that is built, evaluated or rewritten switches the checks off.** -/
theorem lasting_strict : Lasting IsStrict where
  noted _ h := h
  pooled _ h := h
  narrowed h _ _ := h
  met h _ _ := h
  cached _ _ _ h := h

/-- A set of faults with all faults of malformed input. -/
abbrev Excuses (E : Fault → Prop) : Prop := ∀ f, f.isInputFault = true → E f

/-- The action ends with a moderate expression in a strict kernel, or with a fault in `E`. -/
def Builds (E : Fault → Prop) (x : Action Expr) (k : Kernel) : Prop :=
  Yields E x k fun e k' => IsStrict k' ∧ e.isModerate = true

/-- The action ends with moderate expressions in a strict kernel, or with a fault in `E`. -/
def BuildsAll (E : Fault → Prop) (x : Action (List Expr)) (k : Kernel) : Prop :=
  Yields E x k fun es k' => IsStrict k' ∧ ∀ e ∈ es, e.isModerate = true

/-- The action ends with a moderate expression or none in a strict kernel, or with a fault in `E`. -/
def BuildsOption (E : Fault → Prop) (x : Action (Option Expr)) (k : Kernel) : Prop :=
  Yields E x k fun o k' => IsStrict k' ∧ ∀ e, o = some e → e.isModerate = true

theorem builds_pure (hk : IsStrict k) {e : Expr} (he : e.isModerate = true) : Builds E (pure e) k :=
  Yields.pure ⟨hk, he⟩

theorem buildsAll_nil (hk : IsStrict k) : BuildsAll E (pure []) k := Yields.pure ⟨hk, by simp⟩

theorem Builds.cons {x : Action Expr} {xs : Action (List Expr)} (hx : Builds E x k)
    (hxs : ∀ k', IsStrict k' → BuildsAll E xs k') :
    BuildsAll E (do let e ← x; return e :: (← xs)) k :=
  Yields.bind hx fun _ k' he => Yields.bind (hxs k' he.1) fun _ _ hes =>
    Yields.pure ⟨hes.1, List.forall_mem_cons.2 ⟨he.2, hes.2⟩⟩

theorem Builds.some {x : Action Expr} (hx : Builds E x k) :
    BuildsOption E (do return some (← x)) k :=
  Yields.bind hx fun _ _ he => Yields.pure ⟨he.1, fun _ h => by cases h; exact he.2⟩

theorem buildsOption_none (hk : IsStrict k) : BuildsOption E (pure none) k :=
  Yields.pure ⟨hk, fun _ h => by cases h⟩

/-- A step of the kernel that does not fail leaves it strict. -/
theorem yields_strict {α : Type} {x : Action α} {P : α → Kernel → Prop} (hk : IsStrict k)
    (hx : Yields E x k P) (hJ : Maintains IsStrict x) :
    Yields E x k fun a k' => IsStrict k' ∧ P a k' :=
  (hx.and (hJ k hk).yields).mono fun _ _ h => ⟨h.2.1, h.1⟩

/-! ## Interning -/

theorem builds_intern (hk : IsStrict k) {e : Expr} (he : e.isModerate = true) :
    Builds E (intern e) k :=
  (yields_strict hk (yields_intern_same e k) (lasting_strict.intern e)).mono fun _ _ h =>
    ⟨h.1, (Expr.isModerate_of_same h.2).trans he⟩

theorem builds_makeNumber (hk : IsStrict k) {v : Number} (hv : v.isModerate = true) :
    Builds E (makeNumber v) k := builds_intern hk hv

theorem builds_apply (hk : IsStrict k) {f : String} {ops : List Expr}
    (hops : ∀ e ∈ ops, e.isModerate = true) : Builds E (apply f ops) k :=
  yields_apply (builds_intern hk (Expr.isModerate_application.2 hops))

theorem builds_holdApplication (hk : IsStrict k) {f : String} {ops : List Expr}
    (hops : ∀ e ∈ ops, e.isModerate = true) : Builds E (holdApplication f ops) k :=
  Yields.bind (P := fun _ k' => k' = k) rfl fun _ _ h =>
    Yields.pure ⟨by rwa [h], Expr.isModerate_application.2 hops⟩

theorem yields_meetSymbol (hk : IsStrict k) (n : String) :
    Yields E (meetSymbol n) k fun _ k' => IsStrict k' := by
  unfold meetSymbol
  refine Yields.bind (P := fun _ k' => IsStrict k') hk fun _ k₁ hk₁ => ?_
  split <;> exact hk₁

theorem builds_makeSymbol (hk : IsStrict k) (n : String) : Builds E (makeSymbol n) k := by
  unfold makeSymbol
  split
  next => exact builds_intern hk rfl
  next => exact (yields_meetSymbol hk n).bind fun _ _ hk₁ => builds_intern hk₁ rfl

theorem builds_holdSymbol (hk : IsStrict k) (n : String) : Builds E (holdSymbol n) k := by
  unfold holdSymbol
  split
  next => exact builds_intern hk rfl
  next => exact Yields.bind (P := fun _ k' => IsStrict k') hk fun _ _ hk₁ => Yields.pure ⟨hk₁, rfl⟩

/-! ## Checks and forms -/

theorem isModerate_of_refused {ops rs : List Expr} (h : Refused ops rs)
    (hops : ∀ e ∈ ops, e.isModerate = true) : ∀ e ∈ rs, e.isModerate = true :=
  fun e he => (h.mem e he).elim (hops e) Expr.isModerate_of_isError

section Forms

variable {ops : List Expr} (hk : IsStrict k) (hops : ∀ e ∈ ops, e.isModerate = true)

include hk hops

theorem builds_applyChecked (f : String) {d : FunctionDefinition} (hlazy : d.isLazy.truthy = false) :
    Builds E (applyChecked f d ops) k := by
  have hkeeps : Maintains IsStrict (applyChecked f d ops) := fun _ hk' =>
    (lasting_strict.construction.applyChecked hk' (f := f) trivial trivial d
      fun e (_ : e ∈ ops) => trivial).forget
  refine (yields_strict hk (yields_applyChecked_strict hk f hlazy ops) hkeeps).mono ?_
  rintro e k' ⟨hk', i, hsame⟩
  refine ⟨hk', (Expr.isModerate_of_same hsame).trans (Expr.isModerate_application.2 ?_)⟩
  exact isModerate_of_refused (refused_checkedOperands k.table d _) (Expr.isModerate_flatten hops)

/-- A strict check fills the operands up. -/
theorem yields_checkNumeric_filled (n : Nat) :
    Yields E (checkNumeric ops (some n) none) k fun rs k' =>
      IsStrict k' ∧ n ≤ rs.length ∧ ∀ e ∈ rs, e.isModerate = true := by
  refine (yields_strict hk (yields_checkNumeric_strict hk ops (some n))
    (lasting_strict.checkNumeric ops _ none)).mono ?_
  rintro _ k' ⟨hk', rfl⟩
  refine ⟨hk', ?_, isModerate_of_refused (refused_checkedNumbers k.table _ _)
    (Expr.isModerate_flatten hops)⟩
  rw [length_checkedNumbers, Option.getD_some]
  exact le_max_left _ _

variable (hE : Excuses E)

include hE

theorem buildsOption_ownForm (form : CanonicalForm) {count : Nat} (hform : form.arity? = some count) :
    BuildsOption E (buildForm (.canonicalForm form) ops) k := by
  obtain ⟨step, heq, hstep⟩ := exists_forms hform ops
  rw [heq]
  refine (yields_checkNumeric_filled hk hops count).bind ?_
  rintro rs k₁ ⟨hk₁, hlength, hrs⟩
  have hp := Scalar.negatable_isModerate
  have h := hstep rs
  generalize step rs = x at h ⊢
  cases h with
  | nothing =>
      cases hform
      exact absurd hlength (by decide)
  | miscounted =>
      refine Yields.throw ?_
      split <;> exact hE _ rfl
  | opposite v =>
      obtain ⟨w, hw, hmoderate⟩ := Number.exists_neg hp (hrs _ List.mem_cons_self)
      refine (yields_number_ok (P := fun a k' => a = w ∧ k' = k₁) hw ⟨rfl, rfl⟩).bind ?_
      rintro _ _ ⟨rfl, rfl⟩
      exact (builds_makeNumber hk₁ hmoderate).some
  | negated =>
      refine Yields.pure ⟨hk₁, fun e he => ?_⟩
      have hx := hrs _ List.mem_cons_self
      exact Expr.isModerate_application.1 hx e (List.mem_of_mem_head? he)
  | quotient n d h =>
      rw [Bool.and_eq_true] at h
      obtain ⟨w, hw, hmoderate⟩ := Number.exists_div hp h.1 h.2
      refine (yields_number_ok (P := fun a k' => a = w ∧ k' = k₁) hw ⟨rfl, rfl⟩).bind ?_
      rintro _ _ ⟨rfl, rfl⟩
      exact (builds_makeNumber hk₁ hmoderate).some
  | parts x y =>
      have hx := hrs (.number (.real x)) (by simp)
      have hy := hrs (.number (.real y)) (by simp)
      rw [Expr.isModerate, Number.isModerate, Number.isOf_real hp] at hx hy
      exact (builds_makeNumber hk₁ (Number.isOf_ofParts hp hx hy)).some
  | negation | rational | complex => exact (builds_apply hk₁ hrs).some

theorem buildsOption_buildForm (form : Callback) : BuildsOption E (buildForm form ops) k := by
  unfold buildForm
  split
  next => exact buildsOption_ownForm hk hops hE .negation rfl
  next => exact buildsOption_ownForm hk hops hE .rational rfl
  next => exact buildsOption_ownForm hk hops hE .complexPair rfl
  next => exact Yields.pure ⟨hk, fun e he => hops e (List.mem_of_mem_head? he)⟩
  next => exact (builds_makeNumber (v := .zero) hk rfl).some
  next => exact buildsOption_none hk
  next => exact Yields.throw (hE _ rfl)

end Forms

/-! ## Building -/

section Building

variable (hE : Excuses E)

include hE

/-- A function fails for a form of its own. -/
theorem builds_applyFunction (hk : IsStrict k) (f : String) {d : FunctionDefinition}
    (hlazy : d.isLazy.truthy = false) {ops : List Expr} (hops : ∀ e ∈ ops, e.isModerate = true) :
    Builds E (applyFunction f d ops) k := by
  unfold applyFunction
  split
  next => exact builds_applyChecked hk hops f hlazy
  next form _ =>
    refine Yields.bind (buildsOption_buildForm hk hops hE form) fun o k₁ ho => ?_
    cases o with
    | some e => exact builds_pure ho.1 (ho.2 e rfl)
    | none => exact builds_applyChecked ho.1 hops f hlazy

/-- **An application fails for its operands, or for a form of its own.** -/
theorem builds_build (hk : IsStrict k) (f : String) {canonical held : Action (List Expr)}
    (hcanonical : ∀ k, IsStrict k → BuildsAll E canonical k)
    (hheld : ∀ k, IsStrict k → BuildsAll E held k) : Builds E (build f canonical held) k := by
  have happly : ∀ {xs : Action (List Expr)} {k}, BuildsAll E xs k →
      Builds E (do apply f (← xs)) k := fun hxs =>
    Yields.bind hxs fun _ _ h => builds_apply h.1 h.2
  refine yields_build (fun _ => happly (hcanonical k hk)) fun _ => ?_
  refine (yields_meetFunction (P := IsStrict) (fun _ => hk) fun _ => hk).mono ?_
  intro _ k₁ hk₁ _ x _ hx
  cases hx with
  | plain => exact happly (hcanonical k₁ hk₁)
  | held => exact happly (hheld k₁ hk₁)
  | function d hlazy =>
      exact Yields.bind (hcanonical k₁ hk₁) fun ops k₂ h => builds_applyFunction hE h.1 f hlazy h.2

theorem builds_boxNumber (hk : IsStrict k) {r : Raw} (hr : r.isModerate = true) :
    Builds E (boxNumber r) k := by
  unfold boxNumber
  refine Yields.bind (P := fun _ k' => IsStrict k') hk fun p k₁ hk₁ => ?_
  rcases Definition.numberOf_cases hr p with ⟨v, hv, hmoderate⟩ | ⟨f, hf, hkind⟩
  · rw [hv]
    exact builds_makeNumber hk₁ hmoderate
  · rw [hf]
    exact Yields.throw (hE f (by rw [Fault.isInputFault, hkind]; rfl))

end Building

/-! ### From shapes -/

mutual

/-- **A moderate shape is built, or its fault is one of malformed input.** -/
theorem builds_box (hE : Excuses E) {r : Raw} {k : Kernel} (hk : IsStrict k)
    (hr : r.isModerate = true) : Builds E (box r) k := by
  unfold box
  split
  next => exact builds_makeSymbol hk _
  next => exact builds_makeSymbol hk _
  next f args =>
    have hargs := (List.forall_mem_cons.1 (Raw.allModerate_iff.1 hr)).2
    split
    next => exact builds_boxError hE hk hargs
    next =>
      exact builds_build hE hk f (fun _ hk' => buildsAll_boxAll hE hk' hargs)
        fun _ hk' => buildsAll_holdAll hE hk' hargs
  next => exact Yields.throw (hE _ rfl)
  next => exact Yields.throw (hE _ rfl)
  next => exact Yields.throw (hE _ rfl)
  next => exact builds_boxNumber hE hk hr
termination_by sizeOf r

theorem buildsAll_boxAll (hE : Excuses E) {rs : List Raw} {k : Kernel} (hk : IsStrict k)
    (hrs : ∀ r ∈ rs, r.isModerate = true) : BuildsAll E (boxAll rs) k := by
  unfold boxAll
  split
  next => exact buildsAll_nil hk
  next r rest =>
    rw [List.forall_mem_cons] at hrs
    exact (builds_box hE hk hrs.1).cons fun _ hk' => buildsAll_boxAll hE hk' hrs.2
termination_by sizeOf rs

/-- **A moderate shape is held as it stands, or its fault is one of malformed input.** -/
theorem builds_hold (hE : Excuses E) {r : Raw} {k : Kernel} (hk : IsStrict k)
    (hr : r.isModerate = true) : Builds E (hold r) k := by
  unfold hold
  split
  next => exact builds_makeSymbol hk _
  next => exact builds_holdSymbol hk _
  next f args =>
    have hargs := (List.forall_mem_cons.1 (Raw.allModerate_iff.1 hr)).2
    split
    next => exact builds_boxError hE hk hargs
    next =>
      exact Yields.bind (buildsAll_holdAll hE hk hargs) fun _ _ h => builds_holdApplication h.1 h.2
  next => exact Yields.throw (hE _ rfl)
  next => exact Yields.throw (hE _ rfl)
  next => exact Yields.throw (hE _ rfl)
  next => exact builds_boxNumber hE hk hr
termination_by sizeOf r

theorem buildsAll_holdAll (hE : Excuses E) {rs : List Raw} {k : Kernel} (hk : IsStrict k)
    (hrs : ∀ r ∈ rs, r.isModerate = true) : BuildsAll E (holdAll rs) k := by
  unfold holdAll
  split
  next => exact buildsAll_nil hk
  next r rest =>
    rw [List.forall_mem_cons] at hrs
    exact (builds_hold hE hk hrs.1).cons fun _ hk' => buildsAll_holdAll hE hk' hrs.2
termination_by sizeOf rs

theorem builds_boxError (hE : Excuses E) {rs : List Raw} {k : Kernel} (hk : IsStrict k)
    (hrs : ∀ r ∈ rs, r.isModerate = true) : Builds E (boxError rs) k := by
  unfold boxError
  split
  next => exact builds_pure hk rfl
  next code rest =>
    rw [List.forall_mem_cons] at hrs
    exact (yields_errorOperand_strict hE hk hrs.2).bind fun _ _ hk₁ => builds_pure hk₁ rfl
termination_by sizeOf rs

theorem yields_errorOperand_strict (hE : Excuses E) {rs : List Raw} {k : Kernel} (hk : IsStrict k)
    (hrs : ∀ r ∈ rs, r.isModerate = true) :
    Yields E (errorOperand rs) k fun _ k' => IsStrict k' := by
  unfold errorOperand
  split
  next => exact Yields.pure hk
  next => exact Yields.pure hk
  next r _ => exact Yields.bind (builds_hold hE hk (hrs r (by simp))) fun _ _ h => Yields.pure h.1
  next =>
    rw [List.forall_mem_cons] at hrs
    exact yields_errorOperand_strict hE hk hrs.2
termination_by sizeOf rs

end

/-! ### From expressions -/

mutual

/-- **A moderate expression has a canonical form, or its fault is one of malformed input.** -/
theorem builds_canonicalize (hE : Excuses E) : ∀ {e : Expr} {k : Kernel}, IsStrict k →
    e.isModerate = true → Builds E (canonicalize e) k
  | .number _, _, hk, he => builds_pure hk he
  | .error _ _ _, _, hk, he => builds_pure hk he
  | .symbol n d c, _, hk, he => by
      unfold canonicalize
      split
      next => exact builds_pure hk he
      next => exact builds_makeSymbol hk n
  | .application f ops d c, _, hk, he => by
      have hops := Expr.isModerate_application.1 he
      unfold canonicalize
      split
      next => exact builds_pure hk he
      next =>
        exact builds_build hE hk f (fun _ hk' => buildsAll_canonicalizeAll hE hk' hops)
          fun _ hk' => Yields.pure ⟨hk', hops⟩

theorem buildsAll_canonicalizeAll (hE : Excuses E) : ∀ {es : List Expr} {k : Kernel}, IsStrict k →
    (∀ e ∈ es, e.isModerate = true) → BuildsAll E (canonicalizeAll es) k
  | [], _, hk, _ => buildsAll_nil hk
  | e :: rest, _, hk, hes => by
      rw [List.forall_mem_cons] at hes
      unfold canonicalizeAll
      exact (builds_canonicalize hE hk hes.1).cons fun _ hk' => buildsAll_canonicalizeAll hE hk' hes.2

end

theorem builds_rebuild (hE : Excuses E) (hk : IsStrict k) (f : String) {ops : List Expr}
    (hops : ∀ e ∈ ops, e.isModerate = true) (c : Bool) : Builds E (rebuild f ops c) k := by
  unfold rebuild buildFrom
  split
  next =>
    exact builds_build hE hk f (fun _ hk' => buildsAll_canonicalizeAll hE hk' hops)
      fun _ hk' => Yields.pure ⟨hk', hops⟩
  next => exact builds_holdApplication hk hops

/-- A moderate text is read, or its fault is one of malformed input. -/
theorem yields_readText (hE : Excuses E) {text : String} (htext : Sexpr.isModerate text = true) :
    Yields E (ofExcept (Sexpr.parse text)) k fun o k' =>
      k' = k ∧ ∀ r, o = some r → r.isModerate = true := by
  refine yields_ofExcept (fun f hf => hE f ?_) fun o ho => ⟨rfl, ?_⟩
  · rw [Fault.isInputFault, Sexpr.fault_of_parse htext hf]
    rfl
  · rintro r rfl
    exact Sexpr.isModerate_of_parse htext ho

/-- **A moderate text is read and built, or its fault is one of malformed input.** -/
theorem buildsOption_parse (hE : Excuses E) (hk : IsStrict k) {text : String}
    (htext : Sexpr.isModerate text = true) : BuildsOption E (parse text true) k := by
  unfold parse
  refine Yields.bind (yields_readText hE htext) ?_
  rintro (_ | r) k' ⟨rfl, hr⟩
  · exact buildsOption_none hk
  · exact (builds_box hE hk (hr r rfl)).some

end Kernel

/-- Whether a rule puts moderate expressions in. -/
def Rule.isModerate (r : Rule) : Bool := r.rhs.isModerate

namespace Kernel

variable {E : Fault → Prop} {k : Kernel}

/-! ## Rewriting -/

theorem passesOn_isModerate : Pattern.PassesOn (·.isModerate = true) where
  symbol _ _ _ := rfl
  operand := Expr.isModerate_application.1

mutual

theorem builds_substitute (hE : Excuses E) {b : Bindings} (hb : Pattern.Binds (·.isModerate = true) b) :
    ∀ {e : Expr} {k : Kernel}, IsStrict k → e.isModerate = true → Builds E (substitute b e) k
  | .number _, _, hk, he => builds_pure hk he
  | .error _ _ _, _, hk, he => builds_pure hk he
  | .symbol n d c, _, hk, he => by
      unfold substitute
      refine builds_pure hk ?_
      split
      next =>
        cases hn : b.lookup n with
        | none => exact he
        | some x => exact hb.lookup hn
      next => exact he
  | .application f ops d c, _, hk, he => by
      have hops := Expr.isModerate_application.1 he
      unfold substitute
      refine Yields.bind (buildsAll_substituteAll hE hb hk hops) fun ops' k₁ h => ?_
      simp only
      split
      next => exact builds_rebuild hE h.1 _ h.2 c
      next =>
        split
        next => exact builds_pure h.1 he
        next => exact builds_rebuild hE h.1 f h.2 c

theorem buildsAll_substituteAll (hE : Excuses E) {b : Bindings} (hb : Pattern.Binds (·.isModerate = true) b) :
    ∀ {es : List Expr} {k : Kernel}, IsStrict k → (∀ e ∈ es, e.isModerate = true) →
      BuildsAll E (substituteAll b es) k
  | [], _, hk, _ => buildsAll_nil hk
  | e :: rest, _, hk, hes => by
      rw [List.forall_mem_cons] at hes
      unfold substituteAll
      exact (builds_substitute hE hb hk hes.1).cons fun _ hk' =>
        buildsAll_substituteAll hE hb hk' hes.2

end

/-- A guard that fails does not hold. -/
theorem yields_guardHolds (hk : IsStrict k) (r : Rule) (b : Bindings) :
    Yields E (guardHolds r b) k fun _ k' => IsStrict k' := by
  unfold guardHolds
  split
  next => exact Yields.pure hk
  next g _ =>
    have hcheck := lasting_strict.checkGuard g b k hk
    refine Yields.tryCatch (hcheck.yields.mono fun _ _ h => h.1) hcheck fun f k' _ hk' => ?_
    exact Yields.bind (P := fun _ k' => IsStrict k') hk' fun _ _ hk₂ => Yields.pure hk₂

section Rewriting

variable (hE : Excuses E) {rules : List Rule} (hrules : ∀ r ∈ rules, r.isModerate = true)

include hE

theorem buildsOption_applyRule (hk : IsStrict k) {r : Rule} (hr : r.isModerate = true) {e : Expr}
    (he : e.isModerate = true) : BuildsOption E (applyRule r e) k := by
  unfold applyRule
  refine Yields.bind (P := fun _ k' => IsStrict k') hk fun t k₁ hk₁ => ?_
  split
  next => exact buildsOption_none hk₁
  next b hmatch =>
    have hb := Pattern.binds_match? passesOn_isModerate he hmatch
    refine (yields_guardHolds hk₁ r b).bind fun holds k₂ hk₂ => ?_
    split
    next =>
      refine Yields.bind (builds_substitute hE hb hk₂ hr) fun e' k₃ he' => ?_
      refine Yields.bind (P := fun _ k' => IsStrict k') he'.1 fun _ _ hk₄ => ?_
      exact Yields.pure ⟨hk₄, fun _ h => by cases h; exact he'.2⟩
    next => exact buildsOption_none hk₂

include hrules

theorem buildsOption_replaceOnce (hk : IsStrict k) {e : Expr} (he : e.isModerate = true) :
    BuildsOption E (replaceOnce rules e) k := by
  induction rules generalizing k with
  | nil => exact buildsOption_none hk
  | cons r rest ih =>
      rw [List.forall_mem_cons] at hrules
      unfold replaceOnce
      refine Yields.bind (buildsOption_applyRule hE hk hrules.1 he) fun o k₁ ho => ?_
      split
      next e' =>
        split
        next => exact ih hrules.2 ho.1
        next => exact Yields.pure ho
      next => exact ih hrules.2 ho.1

/-- **Rewriting at the root** fails for its input only, if it ends. -/
theorem builds_replace (hend : E .unbounded) (hk : IsStrict k) (bound : Option Int) {e : Expr}
    (he : e.isModerate = true) : Builds E (replace rules bound e) k := by
  refine yields_repeatUntil (I := fun s k' => IsStrict k' ∧ s.2.isModerate = true) hend ?_ ⟨hk, he⟩
  rintro ⟨count, x⟩ k' ⟨hk', hx⟩
  unfold replaceStep
  refine Yields.bind (buildsOption_replaceOnce hE hrules hk' hx) fun o k₁ ho => ?_
  split
  next => exact Yields.pure ⟨ho.1, hx⟩
  next x' =>
    have hx' := ho.2 x' rfl
    simp only
    split
    next => exact Yields.bind (P := fun _ k' => IsStrict k') ho.1 fun _ _ hk₂ => Yields.pure ⟨hk₂, hx'⟩
    next => exact Yields.pure ⟨ho.1, hx'⟩

omit hE hrules in
mutual

theorem builds_replacePass (hE : Excuses E) (hrules : ∀ r ∈ rules, r.isModerate = true)
    (hend : E .unbounded) (bound : Option Int) : ∀ {e : Expr} {k : Kernel}, IsStrict k →
      e.isModerate = true → Builds E (replacePass rules bound e) k
  | .number _, _, hk, he => builds_replace hE hrules hend hk bound he
  | .error _ _ _, _, hk, he => builds_replace hE hrules hend hk bound he
  | .symbol _ _ _, _, hk, he => builds_replace hE hrules hend hk bound he
  | .application f ops d c, _, hk, he => by
      unfold replacePass
      refine Yields.bind (buildsAll_replacePassAll hE hrules hend bound hk
        (Expr.isModerate_application.1 he)) fun ops' k₁ h => ?_
      split
      next => exact builds_replace hE hrules hend h.1 bound he
      next =>
        exact Yields.bind (builds_rebuild hE h.1 f h.2 c) fun _ _ h' =>
          builds_replace hE hrules hend h'.1 bound h'.2

theorem buildsAll_replacePassAll (hE : Excuses E) (hrules : ∀ r ∈ rules, r.isModerate = true)
    (hend : E .unbounded) (bound : Option Int) : ∀ {es : List Expr} {k : Kernel}, IsStrict k →
      (∀ e ∈ es, e.isModerate = true) → BuildsAll E (replacePassAll rules bound es) k
  | [], _, hk, _ => buildsAll_nil hk
  | e :: rest, _, hk, hes => by
      rw [List.forall_mem_cons] at hes
      unfold replacePassAll
      exact (builds_replacePass hE hrules hend bound hk hes.1).cons fun _ hk' =>
        buildsAll_replacePassAll hE hrules hend bound hk' hes.2

end

/-- **Rewriting everywhere** fails for its input only, if it ends. -/
theorem builds_replaceAll (hend : E .unbounded) (hk : IsStrict k) (bound : Option Int) {e : Expr}
    (he : e.isModerate = true) : Builds E (replaceAll rules bound e) k := by
  refine yields_repeatUntil (I := fun s k' => IsStrict k' ∧ s.2.isModerate = true) hend ?_ ⟨hk, he⟩
  rintro ⟨passes, x⟩ k' ⟨hk', hx⟩
  unfold replaceAllStep
  simp only
  split
  next => exact Yields.pure ⟨hk', hx⟩
  next =>
    refine Yields.bind (builds_replacePass hE hrules hend bound hk' hx) fun x' k₁ hx' => ?_
    split <;> exact Yields.pure hx'

end Rewriting

end Kernel

end SymbolicAlgebra
