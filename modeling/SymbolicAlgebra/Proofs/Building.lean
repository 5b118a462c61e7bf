import SymbolicAlgebra.Proofs.Construction
import SymbolicAlgebra.Proofs.ExpansionFamily
import SymbolicAlgebra.Proofs.Sameness

/-!
# Proofs/Building — what building an expression makes of its operands

Checks put errors in the place of operands and never take an operand away; splicing keeps the
leaves.  So a bound from below on the numbers of operands survives building, and with it the family
of the expressions that have such numbers (`Family.counting`).
-/

namespace SymbolicAlgebra

/-! ## Numbers of operands -/

mutual

/-- Whether `p` allows each operator of an expression the number of operands it has. -/
def Expr.counts (p : String → Nat → Bool) : Expr → Bool
  | .application f ops _ _ => p f ops.length && allCount p ops
  | _ => true

def Expr.allCount (p : String → Nat → Bool) : List Expr → Bool
  | [] => true
  | e :: rest => counts p e && allCount p rest

end

namespace Expr

variable {p : String → Nat → Bool}

theorem allCount_iff {es : List Expr} : allCount p es = true ↔ ∀ e ∈ es, e.counts p = true := by
  induction es with
  | nil => simp [allCount]
  | cons e rest ih => simp [allCount, ih]

theorem counts_application {f : String} {ops : List Expr} {d : Option Nat} {c : Bool} :
    (application f ops d c).counts p = true ↔
      p f ops.length = true ∧ ∀ e ∈ ops, e.counts p = true := by
  rw [counts, Bool.and_eq_true, allCount_iff]

theorem counts_of_isError {e : Expr} (h : e.isError = true) : e.counts p = true := by
  cases e with
  | error a b x => rfl
  | _ => cases h

theorem congruence_counts (p : String → Nat → Bool) :
    Congruence (fun e x => x.counts p = e.counts p) fun xs ys => allCount p ys = allCount p xs where
  number _ := rfl
  symbol := rfl
  application hsame h := by rw [counts, counts, length_of_sameAll hsame, h]
  error _ := rfl
  nil := rfl
  cons _ hx hxs := by rw [allCount, allCount, hx, hxs]

theorem counts_of_same {e x : Expr} (h : e.same x = true) : x.counts p = e.counts p :=
  (congruence_counts p).of_same h

/-! ## Filled expressions -/

/-- Sums and products of something, and no sequences. -/
def isFilledWith (f : String) (count : Nat) : Bool :=
  f != "Sequence" && (count != 0 || (f != "Add" && f != "Multiply"))

/-- Whether no sequence and no empty sum or product occurs in an expression. -/
abbrev isFilled (e : Expr) : Bool := e.counts isFilledWith

theorem isFilledWith_eq_true {f : String} {n : Nat} : isFilledWith f n = true ↔
    f ≠ "Sequence" ∧ (f = "Add" ∨ f = "Multiply" → n ≠ 0) := by
  simp only [isFilledWith, Bool.and_eq_true, Bool.or_eq_true, bne_iff_ne]
  tauto

mutual

/-- Splicing leaves something of a filled expression. -/
theorem leaves_ne_nil {g : String} {a : Option String} (hg : g = "Add" ∨ g = "Multiply")
    (ha : a = none ∨ a = some g) : ∀ {e : Expr}, e.isFilled = true → leaves a e ≠ []
  | number _, _ => by simp [leaves]
  | symbol _ _ _, _ => by simp [leaves]
  | error _ _ _, _ => by simp [leaves]
  | application f ops d c, he => by
      obtain ⟨hf, hops⟩ := counts_application.1 he
      rw [isFilledWith_eq_true] at hf
      rw [leaves]
      split
      next hs =>
        refine flatten_ne_nil hg ha (fun h => hf.2 ?_ (by rw [h]; rfl)) hops
        rcases ha with rfl | rfl
        · simp [isSpliced, hf.1] at hs
        · rcases isSpliced_some.1 hs with h | rfl
          · exact absurd h hf.1
          · exact hg
      next => simp

theorem flatten_ne_nil {g : String} {a : Option String} (hg : g = "Add" ∨ g = "Multiply")
    (ha : a = none ∨ a = some g) : ∀ {es : List Expr}, es ≠ [] → (∀ e ∈ es, e.isFilled = true) →
      flatten a es ≠ []
  | [], h, _ => absurd rfl h
  | e :: rest, _, hes => by
      rw [flatten]
      exact List.append_ne_nil_of_left_ne_nil (leaves_ne_nil hg ha (hes e (by simp))) _

end

end Expr

namespace Kernel

/-- What `p` needs so that building keeps it: it allows what arithmetic, relations and forms build,
more operands where it allows some, and what is left when operands are spliced. -/
structure Countable (p : String → Nat → Bool) : Prop where
  arithmetic : ∀ {f n}, f ∈ arithmeticOperators → isBuiltWith f n = true → p f n = true
  relation : ∀ {f n}, (Relation.ofOperator? f).isSome = true → p f n = true
  form : ∀ {f}, f = "Rational" ∨ f = "Complex" → p f 2 = true
  mono : ∀ {f n m}, p f n = true → n ≤ m → p f m = true
  flatten : ∀ {a f ops}, a = none ∨ a = some f → p f ops.length = true →
    (∀ e ∈ ops, e.counts p = true) → p f (Expr.flatten a ops).length = true

theorem countable_filled : Countable Expr.isFilledWith where
  arithmetic := by
    intro f n hf hn
    simp only [arithmeticOperators, List.mem_cons, List.not_mem_nil, or_false] at hf
    rcases hf with rfl | rfl | rfl | rfl | rfl <;>
      simp_all [Expr.isFilledWith, isBuiltWith]
  relation := by
    intro f n hf
    rw [Expr.isFilledWith_eq_true]
    refine ⟨?_, ?_⟩
    · rintro rfl
      cases hf
    · rintro (rfl | rfl) <;> cases hf
  form := by
    rintro f (rfl | rfl) <;> rfl
  mono := by
    intro f n m h hnm
    rw [Expr.isFilledWith_eq_true] at h ⊢
    exact ⟨h.1, fun hf => by have := h.2 hf; omega⟩
  flatten := by
    intro a f ops ha hf hops
    rw [Expr.isFilledWith_eq_true] at hf ⊢
    refine ⟨hf.1, fun hg hlen => ?_⟩
    refine Expr.flatten_ne_nil hg ha (fun h => hf.2 hg (by rw [h]; rfl)) hops ?_
    exact List.length_eq_zero_iff.1 hlen

/-- The expressions with numbers of operands that `p` allows. -/
def Family.counting {p : String → Nat → Bool} (hp : Countable p) : Family where
  Fits := fun e => e.counts p = true
  Holds := fun _ => True
  number := fun _ => rfl
  operand := fun _ h => (Expr.counts_application.1 h).2
  node := fun _ hf hn _ hops => Expr.counts_application.2 ⟨hp.arithmetic hf hn, hops⟩
  pooled := fun _ he _ h => (Expr.counts_of_same h).trans he
  pooling := fun _ _ => trivial
  pooling_product := fun _ => trivial

instance {p : String → Nat → Bool} (hp : Countable p) : (Family.counting hp).Free where
  power := fun _ ha hb =>
    Expr.counts_application.2 ⟨hp.arithmetic (by decide) rfl, by simpa using ⟨ha, hb⟩⟩

/-! ## Building -/

namespace Family

variable {p : String → Nat → Bool} {E : Fault → Prop} {k : Kernel}

theorem makes_counting {a : Action Expr} (hp : Countable p) :
    (counting hp).Makes E a k ↔ Yields E a k fun r _ => r.counts p = true :=
  ⟨fun h => Yields.mono h fun _ _ hr => hr.2, fun h => Yields.mono h fun _ _ hr => ⟨trivial, hr⟩⟩

/-- Any operator that has a number of operands it may have. -/
theorem counts_apply {f : String} {ops : List Expr} (hf : p f ops.length = true)
    (hops : ∀ e ∈ ops, e.counts p = true) :
    Yields E (apply f ops) k fun r _ => r.counts p = true := by
  have hnode : (Expr.application f ops (k.table.functionNumber? f) true).counts p = true :=
    Expr.counts_application.2 ⟨hf, hops⟩
  exact Kernel.yields_apply (Kernel.yields_intern (fun x _ h => (Expr.counts_of_same h).trans hnode) hnode)

theorem counts_refused {ops rs : List Expr} (h : Refused ops rs)
    (hops : ∀ e ∈ ops, e.counts p = true) : ∀ e ∈ rs, e.counts p = true :=
  fun e he => (h.mem e he).elim (hops e) Expr.counts_of_isError

theorem counts_makeNumber (v : Number) :
    Yields E (makeNumber v) k fun r _ => r.counts p = true :=
  Kernel.yields_intern (fun _ _ h => Expr.counts_of_same h) rfl

theorem counts_makeSymbol (n : String) :
    Yields E (makeSymbol n) k fun r _ => r.counts p = true :=
  (yields_makeSymbol_same n none true k).mono fun _ _ h => Expr.counts_of_same h

theorem counts_flatten {a : Option String} {ops : List Expr}
    (hops : ∀ e ∈ ops, e.counts p = true) : ∀ e ∈ Expr.flatten a ops, e.counts p = true :=
  Expr.forall_flatten (fun _ _ _ _ _ h => (Expr.counts_application.1 h).2) hops

theorem counts_some {a : Action Expr} (ha : Yields E a k fun r _ => r.counts p = true) :
    Yields E (do return some (← a)) k fun o _ => ∀ r, o = some r → r.counts p = true :=
  ha.bind fun _ _ hr => Yields.pure fun _ h => by cases h; exact hr

section Build

variable (hp : Countable p)

include hp

/-- Checked operands of a numeric function. -/
theorem counts_checkNumeric {ops : List Expr} {count : Option Nat} {f : String}
    (hf : p f ops.length = true) (hops : ∀ e ∈ ops, e.counts p = true) :
    Yields E (checkNumeric ops count none) k fun rs _ =>
      p f rs.length = true ∧ ∀ e ∈ rs, e.counts p = true :=
  (yields_checkNumeric_refused ops count).mono fun _ _ h =>
    ⟨hp.mono (hp.flatten (.inl rfl) hf hops) h.length, counts_refused h (counts_flatten hops)⟩

theorem counts_applyChecked {f : String} {d : FunctionDefinition} {ops : List Expr}
    (hf : p f ops.length = true) (hops : ∀ e ∈ ops, e.counts p = true) :
    Yields E (applyChecked f d ops) k fun r _ => r.counts p = true := by
  have hflat : p f (Expr.flatten (if d.associative.truthy then some f else none) ops).length =
      true := hp.flatten (by split <;> simp) hf hops
  have hes := counts_flatten (a := if d.associative.truthy then some f else none) hops
  unfold applyChecked
  simp only
  generalize Expr.flatten (if d.associative.truthy then some f else none) ops = es at hflat hes
  split
  next =>
    exact (counts_checkNumeric hp hflat hes).bind fun rs k' h => counts_apply h.1 h.2
  next =>
    refine (yields_checkSignature_refused es d.signature _ _).bind fun o k' h => ?_
    exact counts_apply (hp.mono hflat h.length) (counts_refused h hes)

theorem counts_ownForm (form : CanonicalForm) {count : Nat} (hform : form.arity? = some count)
    {ops : List Expr} (hops : ∀ e ∈ ops, e.counts p = true) :
    Yields Bounded (buildForm (.canonicalForm form) ops) k fun o _ =>
      ∀ r, o = some r → r.counts p = true := by
  obtain ⟨step, heq, hstep⟩ := exists_forms hform ops
  rw [heq]
  refine (yields_checkNumeric_refused ops (some count)).bind fun rs k₁ h => ?_
  have hrs := counts_refused h (counts_flatten hops)
  have hnumber : ∀ x : Except NumberFault Number, Yields Bounded
      (do return some (← makeNumber (← Kernel.number x))) k₁ fun o _ =>
        ∀ r, o = some r → r.counts p = true := fun x =>
    Yields.bind (P := fun _ _ => True) (yields_number fun _ _ => trivial) fun w _ _ =>
      counts_some (counts_makeNumber w)
  have h := hstep rs
  generalize step rs = x at h ⊢
  cases h with
  | nothing => exact fun h => by cases h
  | miscounted =>
      refine Yields.throw ?_
      split <;> exact fun h => by cases h
  | opposite => exact hnumber _
  | negated =>
      refine Yields.pure fun r hr => ?_
      exact (Expr.counts_application.1 (hrs _ List.mem_cons_self)).2 r (List.mem_of_mem_head? hr)
  | negation =>
      have hnegate := hp.arithmetic (by decide) (show isBuiltWith "Negate" 1 = true from rfl)
      exact counts_some (counts_apply (hp.mono hnegate (Nat.le_add_left 1 _)) hrs)
  | quotient => exact hnumber _
  | parts => exact counts_some (counts_makeNumber _)
  | rational => exact counts_some (counts_apply (hp.form (.inl rfl)) hrs)
  | complex => exact counts_some (counts_apply (hp.form (.inr rfl)) hrs)

theorem counts_buildForm {form : Callback} {ops : List Expr} (hops : ∀ e ∈ ops, e.counts p = true) :
    Yields Bounded (buildForm form ops) k fun o _ => ∀ r, o = some r → r.counts p = true := by
  unfold buildForm
  split
  next => exact counts_ownForm hp .negation rfl hops
  next => exact counts_ownForm hp .rational rfl hops
  next => exact counts_ownForm hp .complexPair rfl hops
  next => exact Yields.pure fun r hr => hops r (List.mem_of_mem_head? hr)
  next => exact counts_some (counts_makeNumber _)
  next => exact Yields.pure (by simp)
  next => exact fun h => by cases h

theorem counts_applyFunction {f : String} {d : FunctionDefinition} {ops : List Expr}
    (hf : p f ops.length = true) (hops : ∀ e ∈ ops, e.counts p = true) :
    Yields Bounded (applyFunction f d ops) k fun r _ => r.counts p = true := by
  unfold applyFunction
  split
  next => exact counts_applyChecked hp hf hops
  next form _ =>
    refine (counts_buildForm hp hops).bind fun o k₁ ho => ?_
    cases o with
    | some r => exact Yields.pure (ho r rfl)
    | none => exact counts_applyChecked hp hf hops

/-- **Building keeps the numbers of operands allowed.** -/
theorem counts_build {f : String} {n : Nat} {canonical held : Action (List Expr)}
    (hf : p f n = true)
    (hcanonical : ∀ k, Yields Bounded canonical k fun rs _ =>
      rs.length = n ∧ ∀ e ∈ rs, e.counts p = true)
    (hheld : ∀ k, Yields Bounded held k fun rs _ => rs.length = n ∧ ∀ e ∈ rs, e.counts p = true) :
    Yields Bounded (build f canonical held) k fun r _ => r.counts p = true := by
  have happly : ∀ {x : Action (List Expr)} {k}, (Yields Bounded x k fun rs _ =>
      rs.length = n ∧ ∀ e ∈ rs, e.counts p = true) →
      Yields Bounded (do apply f (← x)) k fun r _ => r.counts p = true :=
    fun hx => hx.bind fun rs k' h => counts_apply (h.1 ▸ hf) h.2
  refine yields_build (fun _ => happly (hcanonical k)) fun _ => ?_
  refine (yields_meetFunction (P := fun _ => True) (fun _ => trivial) fun _ => trivial).mono ?_
  intro _ k₁ _ _ x _ hx
  cases hx with
  | plain => exact happly (hcanonical k₁)
  | held => exact happly (hheld k₁)
  | function =>
      exact (hcanonical k₁).bind fun rs k₂ h => counts_applyFunction hp (h.1 ▸ hf) h.2

end Build

mutual

/-- **Canonical forms keep the numbers of operands allowed.** -/
theorem counts_canonicalize (hp : Countable p) : ∀ {e : Expr} {k : Kernel}, e.counts p = true →
    Yields Bounded (canonicalize e) k fun r _ => r.counts p = true
  | .number _, _, _ => Yields.pure rfl
  | .error _ _ _, _, _ => Yields.pure rfl
  | .symbol n d c, k, _ => by
      unfold canonicalize
      split
      next => exact Yields.pure rfl
      next => exact counts_makeSymbol n
  | .application f ops d c, k, he => by
      unfold canonicalize
      split
      next => exact Yields.pure he
      next =>
        obtain ⟨hf, hops⟩ := Expr.counts_application.1 he
        refine counts_build hp hf (fun k => counts_canonicalizeAll hp hops) fun k => ?_
        exact Yields.pure ⟨rfl, hops⟩

theorem counts_canonicalizeAll (hp : Countable p) : ∀ {es : List Expr} {k : Kernel},
    (∀ e ∈ es, e.counts p = true) → Yields Bounded (canonicalizeAll es) k fun rs _ =>
      rs.length = es.length ∧ ∀ e ∈ rs, e.counts p = true
  | [], _, _ => Yields.pure ⟨rfl, by simp⟩
  | e :: rest, k, hes => by
      rw [List.forall_mem_cons] at hes
      unfold canonicalizeAll
      refine (counts_canonicalize hp hes.1).bind fun r k₁ hr => ?_
      refine (counts_canonicalizeAll hp hes.2).bind fun rs k₂ hrs => ?_
      exact Yields.pure ⟨by simp [hrs.1], List.forall_mem_cons.2 ⟨hr, hrs.2⟩⟩

end

/-- An application built anew. -/
theorem counts_buildFrom (hp : Countable p) {f : String} {ops : List Expr}
    (hf : p f ops.length = true) (hops : ∀ e ∈ ops, e.counts p = true) :
    Yields Bounded (buildFrom f ops) k fun r _ => r.counts p = true :=
  counts_build hp hf (fun _ => counts_canonicalizeAll hp hops) fun _ => Yields.pure ⟨rfl, hops⟩

/-- **Expansion does not leave the family.** -/
theorem expandable_counting (hp : Countable p) : (counting hp).Expandable where
  tame := .inl inferInstance
  canonize := fun _ he => (makes_counting hp).2 (counts_canonicalize hp he)
  relation := fun _ hf _ hrs => Expr.counts_application.2 ⟨hp.relation hf, hrs⟩

end Family

end Kernel

end SymbolicAlgebra
